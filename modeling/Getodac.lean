import Getodac.Basic
import Getodac.Lib.Lists
import Getodac.Lib.Octets
import Getodac.Lib.Runs
import Getodac.Lib.Paths
import Getodac.Lib.Tape
import Getodac.Lib.ChunkedCoding
import Getodac.Utils
import Getodac.Write
import Getodac.WriteAnswers
import Getodac.Wakeups
import Getodac.StaticContent
import Getodac.FilesCache
import Getodac.Chunked
import Getodac.Encoding
import Getodac.Buffer
import Getodac.Http
import Getodac.Parser
import Getodac.Session
import Getodac.ReadHeaders
import Getodac.Overrun
import Getodac.Cuts
import Getodac.Waiting
import Getodac.Message
import Getodac.Pipeline
import Getodac.Unread
import Getodac.Resent
import Getodac.BrokenOff
import Getodac.ErrorResponses
import Getodac.Lib.FileTree
import Getodac.Links
import Getodac.Admission
import Getodac.Tls
import Getodac.Registration
import Getodac.Descriptors
import Getodac.Timeouts
import Getodac.Restful
import Getodac.ThreadWorker
import Getodac.TaskDispatch
import Getodac.SimpleTimer
import Getodac.ContentLength
import Getodac.Bodies
import Getodac.Counting
import Getodac.Deletion
import Getodac.Lib.Components
import Getodac.Lib.EdgeTriggered
import Getodac.Retention
import Getodac.Shutdown
import Getodac.ShutdownEnds
import Getodac.Accepting
import Getodac.Lib.HttpClient
import Getodac.Replies
import Getodac.KeepAlive
import Getodac.Coroutine
import Getodac.WindsDown
import Getodac.IoLoop
import Getodac.Readiness
import Getodac.Lib.Splitting
import Getodac.Text
import Getodac.RestfulUrls
import Getodac.RestfulRegistry
import Getodac.Lib.Lru
import Getodac.LruCache
import Getodac.Lib.Versions
import Getodac.CachedFiles
import Getodac.Mappings
import Getodac.Lib.HttpMessage
import Getodac.ResponseText
import Getodac.EventLoop
import Getodac.Deadlines
