import Hin9.Lib.Horner
import Hin9.Lib.Runs
import Hin9.Lib.LabelledTree
import Hin9.Lib.Fifo
import Hin9.Lib.Chunked
import Hin9.Lib.Frames
import Hin9.Basic.Pattern
import Hin9.Basic.PatternSpec
import Hin9.Basic.PatternRef
import Hin9.Vfs.Tree
import Hin9.Vfs.TreeInvariant
import Hin9.Vfs.Path
import Hin9.Vfs.Confine
import Hin9.Vfs.Inotify
import Hin9.Vfs.Live
import Hin9.Vfs.Holders
import Hin9.Vfs.Removal
import Hin9.Vfs.HeldOpen
import Hin9.Netcode.Pipe
import Hin9.Netcode.PipeInvariant
import Hin9.Netcode.PipeEnd
import Hin9.Netcode.Ssl
import Hin9.Netcode.SslOnce
import Hin9.Netcode.Uring
import Hin9.Netcode.UringQueue
import Hin9.Netcode.UringOrder
import Hin9.Http.ChunkDecode
import Hin9.Http.ChunkDecodeCorrect
import Hin9.Http.SendFile
import Hin9.Http.Filters
import Hin9.Http.FileHead
import Hin9.Http.FileReply
import Hin9.Http.RequestReset
import Hin9.Http.Cache
import Hin9.Http.CacheFrame
import Hin9.Http.CacheRefs
import Hin9.Http.CacheServe
import Hin9.Http.CacheAnswers
import Hin9.Http.CacheQueue
import Hin9.Http.Upstream
import Hin9.Http.Pool
import Hin9.Fcgi.Record
import Hin9.Fcgi.Read
import Hin9.Fcgi.Write
import Hin9.Fcgi.WriteCorrect
import Hin9.Fcgi.Busy
import Hin9.Fcgi.Group
import Hin9.Fcgi.GroupIdle
import Hin9.Http.Proxy
import Hin9.Http.ProxyPipe
import Hin9.Http.HeadOnly
import Hin9.Http.CgiHead
import Hin9.Http.CgiFraming
import Hin9.Basic.Dlist
import Hin9.Basic.Hashtable
import Hin9.System.TimingSorted
import Hin9.Http.ProxyRequest
import Hin9.Http.Upstreams
import Hin9.Http.UpstreamsIdle
import Hin9.Http.Conditional
import Hin9.Http.HeaderChain
import Hin9.Http.UrlEncoding
import Hin9.Http.Names
import Hin9.Http.ChunkEncode
import Hin9.Http.ChunkFail
import Hin9.Http.EtagTag
import Hin9.Http.VirtualHost
import Hin9.Http.PostLength
import Hin9.Http.ForwardedLength
import Hin9.Http.CacheControl
import Hin9.Http.CacheLine
import Hin9.Http.CacheSave
import Hin9.Http.VhostMap
import Hin9.Http.UpstreamsRestart
import Hin9.Http.FindLine
import Hin9.Netcode.EventLoop
import Hin9.Http.ParseUri
import Hin9.Netcode.Connect
import Hin9.Vfs.DirMap
import Hin9.Basic.PatternCursor
import Hin9.Lua.SanitizePath
import Hin9.Http.RawResponse
import Hin9.Vfs.Redirect
import Hin9.Lua.Logs
import Hin9.Basic.DlistChain
import Hin9.Basic.HashtableIterate
import Hin9.Netcode.Lines
import Hin9.Netcode.Stop
import Hin9.Http.BodyEnd
import Hin9.Http.ChunkRelay
import Hin9.Http.ForwardedHead
import Hin9.Http.ProxyChain
import Hin9.Http.RequestBytes
import Hin9.Http.RequestSplit
import Hin9.Netcode.Accept
import Hin9.Http.CgiEnv
import Hin9.Lua.RequestHeaders
import Hin9.System.Children
import Hin9.Vfs.Lookup
import Hin9.Vfs.Mirror
import Hin9.Basic.Time
import Hin9.Http.HttpDate
