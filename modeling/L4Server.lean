import L4Server.Library.CMemory
import L4Server.Library.PrintedText
import L4Server.Library.Automaton
import L4Server.Library.BoundedQueue
import L4Server.Library.X86
import L4Server.Library.LinkedChain
import L4Server.Library.TextMemory
import L4Server.Library.WordMixing
import L4Server.Library.Simulation
import L4Server.Library.EndlessRun
import L4Server.SwapContext
import L4Server.Coro
import L4Server.CoroRuns
import L4Server.Kv
import L4Server.KvRuns
import L4Server.StrBuf
import L4Server.StringRuns
import L4Server.HttpParser
import L4Server.ParserSafety
import L4Server.ParserViews
import L4Server.RequestLine
import L4Server.AcceptedRequest
import L4Server.HeaderFields
import L4Server.BodyIndependence
import L4Server.HeaderRoundTrip
import L4Server.RequestRoundTrip
import L4Server.RequestGrammar
import L4Server.Response
import L4Server.ResponseRoundTrip
import L4Server.StaticRouter
import L4Server.Connection
import L4Server.Handler
import L4Server.ListenLoop
import L4Server.Resume
import L4Server.Books
import L4Server.Accounting
import L4Server.Lifecycle
import L4Server.Closing
import L4Server.RingBounds
import L4Server.NeverCrashes
import L4Server.Service
import L4Server.Lookups
import L4Server.SubmissionQueue
import L4Server.SlotRuns
import L4Server.FileDescriptors
import L4Server.ListenThreads
import L4Server.ThreadTurns
import L4Server.ThreadRuns
import L4Server.Growth
import L4Server.Delivery
import L4Server.SessionIsolation
import L4Server.SplicePipe
import L4Server.PipeDelivery
import L4Server.PipedLoop
import L4Server.WatchedFiles
import L4Server.FileService
import L4Server.QuerySegments
import L4Server.SlotPreparation
import L4Server.ServerCreation
import L4Server.Hashtable
import L4Server.HashChains
import L4Server.HashRelease
import L4Server.HashIndices
import L4Server.HashMapRuns
import L4Server.HashSpread
import L4Server.ParserCursor
import L4Server.FibRoute
