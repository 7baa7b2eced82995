import Getodac.Basic
/-!
# `Dracon::Response` and `Dracon::Request`

The request as the parser's callbacks fill it, and the response as text.
-/

namespace Getodac

/-- `Dracon::ChunkedData`. -/
def chunkedData : Nat := 2 ^ 64 - 1

/-- `Dracon::Fields`, a hash map, as the list of its entries. -/
abbrev Fields := List (Bytes × Bytes)

namespace Fields

def find (fs : Fields) (key : Bytes) : Option Bytes := fs.lookup key

/-- `fs[key] = value`. -/
def set : Fields → Bytes → Bytes → Fields
  | [], key, value => [(key, value)]
  | (k, v) :: fs, key, value => if k = key then (k, value) :: fs else (k, v) :: set fs key value

theorem find_cons (k v : Bytes) (fs : Fields) (x : Bytes) :
    find ((k, v) :: fs) x = if x = k then some v else fs.find x := by
  by_cases hx : x = k
  · simp [find, hx]
  · simp [find, List.lookup_cons, hx, beq_eq_false_iff_ne.2 hx]

theorem find_set (fs : Fields) (key value x : Bytes) :
    (fs.set key value).find x = if x = key then some value else fs.find x := by
  induction fs with
  | nil => rw [set, find_cons]
  | cons kv fs ih =>
    obtain ⟨k, v⟩ := kv
    unfold set
    by_cases hk : k = key
    · rw [if_pos hk, find_cons, find_cons, hk]
      split <;> rfl
    · rw [if_neg hk, find_cons, find_cons, ih]
      grind

/-- A new key comes last. -/
theorem set_absent {fs : Fields} {key : Bytes} (h : key ∉ fs.map (·.1)) (value : Bytes) :
    fs.set key value = fs ++ [(key, value)] := by
  induction fs with
  | nil => rfl
  | cons kv fs ih =>
    have hne : kv.1 ≠ key := fun he => h (List.mem_map.2 ⟨kv, List.mem_cons_self, he⟩)
    rw [set, if_neg hne, ih (List.not_mem_of_not_mem_cons h), List.cons_append]

end Fields

/-! ## Responses -/

/-- `StatusCodes`. -/
def statusCodes : List (Nat × String) :=
  [(100, "100 Continue\r\n"), (101, "101 Switching Protocols\r\n"),
   (200, "200 OK\r\n"), (201, "201 Created\r\n"), (202, "202 Accepted\r\n"),
   (203, "203 Non-Authoritative Information\r\n"), (204, "204 No Content\r\n"), (205, "205 Reset Content\r\n"),
   (206, "206 Partial Content\r\n"),
   (300, "300 Multiple Choices\r\n"), (301, "301 Moved Permanently\r\n"), (302, "302 Found\r\n"),
   (303, "303 See Other\r\n"), (304, "304 Not Modified\r\n"), (305, "305 Use Proxy\r\n"),
   (306, "306 Switch Proxy\r\n"), (307, "307 Temporary Redirect\r\n"),
   (400, "400 Bad Request\r\n"), (401, "401 Unauthorized\r\n"), (402, "402 Payment Required\r\n"),
   (403, "403 Forbidden\r\n"), (404, "404 Not Found\r\n"), (405, "405 Method Not Allowed\r\n"),
   (406, "406 Not Acceptable\r\n"), (407, "407 Proxy Authentication Required\r\n"), (408, "408 Request Timeout\r\n"),
   (409, "409 Conflict\r\n"), (410, "410 Gone\r\n"), (411, "411 Length Required\r\n"),
   (412, "412 Precondition Failed\r\n"), (413, "413 Request Entity Too Large\r\n"),
   (414, "414 Request-URI Too Long\r\n"), (415, "415 Unsupported Media Type\r\n"),
   (416, "415 Requested Range Not Satisfiable\r\n"), (417, "417 Expectation Failed\r\n"),
   (500, "500 Internal Server Error\r\n"), (501, "501 Not Implemented\r\n"), (502, "502 Bad Gateway\r\n"),
   (503, "503 Service Unavailable\r\n"), (504, "504 Gateway Timeout\r\n"),
   (505, "505 HTTP Version Not Supported\r\n")]

def statusCodeString (status : Nat) : Bytes :=
  match statusCodes.lookup status with
  | some text => bytes text
  | none => bytes "500 Internal Server Error\r\n"

structure Response where
  statusCode : Nat := 500
  body : Bytes := []
  contentLength : Nat := body.length
  keepAlive : Int := -1
  fields : Fields := []
deriving DecidableEq, Repr

namespace Response

def setStatusCode (res : Response) (statusCode : Nat) : Response := { res with statusCode := statusCode }

def setContentLength (res : Response) (length : Nat) : Response := { res with contentLength := length, body := [] }

def setKeepAlive (res : Response) (seconds : Int) : Response := { res with keepAlive := seconds }

def setBody (res : Response) (body : Bytes) : Response := { res with body := body, contentLength := body.length }

/-- `toString`; the fields come in the order of the hash map. -/
def toString (res : Response) (keepAliveOverride : Int := -1) : Bytes :=
  let statusCode := if res.statusCode = 0 then 500 else res.statusCode
  let keepAlive := if keepAliveOverride = -1 then res.keepAlive else keepAliveOverride
  bytes "HTTP/1.1 " ++ statusCodeString statusCode ++
  res.fields.flatMap (fun kv => kv.1 ++ bytes ": " ++ kv.2 ++ crlf) ++
  (if res.contentLength = chunkedData then bytes "Transfer-Encoding: chunked\r\n"
    else bytes "Content-Length: " ++ bytes (ToString.toString res.contentLength) ++ crlf) ++
  (if 0 < keepAlive then
    bytes "Keep-Alive: timeout=" ++ bytes (ToString.toString keepAlive) ++ crlf ++ bytes "Connection: keep-alive\r\n"
    else bytes "Connection: close\r\n") ++
  crlf ++ res.body

end Response

/-- What the code throws. -/
inductive Exc where
  | int (error : Int)
  | response (res : Response)
  | exception (what : Bytes)
  | error_code (ec : ErrorCode)
  | other
deriving DecidableEq, Repr

/-! ## Requests -/

/-- `Request::State`. -/
inductive State where
  | Uninitialized
  | ProcessingUrl
  | ProcessingHeader
  | HeadersCompleted
  | ProcessingBody
  | Completed
deriving DecidableEq, Repr

/-- A body callback, called with what came before and the next piece: what it throws, if it does. -/
abbrev BodyCallback := Bytes → Bytes → Option Exc

structure Request where
  keepAlive : Bool := false
  url : Bytes := []
  method : Bytes := []
  fields : Fields := []
  callback : Option BodyCallback := none
  state : State := .Uninitialized
  maxBodySize : Nat := 0
  -- history: what the callback was given
  body : Bytes := []

namespace Request

def appendBodyCallback (req : Request) (callback : BodyCallback) (maxSize : Nat := 2 ^ 64 - 2) : Request :=
  { req with maxBodySize := maxSize, callback := some callback }

def appendBody (req : Request) (piece : Bytes) : Request × Option Exc :=
  match req.callback with
  | none => (req, some (.response { statusCode := 400, body := bytes "unexpected body" }))
  | some callback => ({ req with body := req.body ++ piece }, callback req.body piece)

end Request

/-- `std::isspace` in the C locale. -/
def isSpace (b : UInt8) : Bool := b = 32 || (9 ≤ b && b ≤ 13)

/-- `std::strtoull(s, &end, 10)` of a string without NUL: the value, and how far `end` is. -/
def strtoull (s : Bytes) : Nat × Nat :=
  let ws := s.takeWhile isSpace
  let rest := s.dropWhile isSpace
  let sign := rest.take 1 |>.filter fun b => b = 43 || b = 45
  let ds := (rest.drop sign.length).takeWhile isDigit
  if ds = [] then (0, 0)
  else
    let n := ds.foldl (fun n d => n * 10 + (d.toNat - 48)) 0
    (if 2 ^ 64 ≤ n then 2 ^ 64 - 1 else if sign = [45] then (2 ^ 64 - n) % 2 ^ 64 else n,
      ws.length + sign.length + ds.length)

def Request.contentLength (req : Request) : Nat :=
  match req.fields.find (bytes "Content-Length") with
  | some value => if (strtoull value).2 = value.length then (strtoull value).1 else chunkedData
  | none => chunkedData

end Getodac
