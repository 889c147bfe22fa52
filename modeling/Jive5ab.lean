import Jive5ab.Lib.Machine
import Jive5ab.Lib.OrdMap
import Jive5ab.Server.Runtimes
import Jive5ab.Server.RuntimesSoundness
import Jive5ab.Queue.BQueue
import Jive5ab.Queue.Fifo
import Jive5ab.Lib.Slice
import Jive5ab.Vbs.OpenFile
import Jive5ab.Vbs.ReadSoundness
import Jive5ab.Lib.Calendar
import Jive5ab.Vdif.Reframe
import Jive5ab.Vdif.ReframeTime
import Jive5ab.Net.DatastreamDemux
import Jive5ab.Net.UdpsReader
import Jive5ab.Net.UdpsPlacement
import Jive5ab.Trackmask.Solver
import Jive5ab.Lib.Bits
import Jive5ab.Trackmask.SolverSoundness
import Jive5ab.Trackmask.Codegen
import Jive5ab.Trackmask.Packing
import Jive5ab.Lib.LittleEndian
import Jive5ab.Lib.TokenPool
import Jive5ab.Recorder.Parallelwriter
import Jive5ab.Recorder.Tokens
import Jive5ab.Recorder.Durability
import Jive5ab.Vbs.Mark6Scan
import Jive5ab.Recorder.Mark6RoundTrip
import Jive5ab.Headersearch.State
import Jive5ab.Lib.BitField
import Jive5ab.Headersearch.VdifHeaders
import Jive5ab.Headersearch.VdifPeriods
import Jive5ab.Headersearch.VlbaTime
import Jive5ab.Lib.Rounding
import Jive5ab.Headersearch.Mark5B
import Jive5ab.Headersearch.Tracks
import Jive5ab.Headersearch.Vlba
import Jive5ab.Headersearch.Mark4
import Jive5ab.Headersearch.Mark4St
import Jive5ab.Lib.RoundRobin
import Jive5ab.Lib.Split
import Jive5ab.Rsync.KvMap
import Jive5ab.Rsync.Negotiation
import Jive5ab.Trackmask.Lossless
import Jive5ab.Constraints.Constrain
import Jive5ab.Constraints.Soundness
import Jive5ab.Lib.Tally
import Jive5ab.Queue.Wakeup
import Jive5ab.Queue.Drain
import Jive5ab.Userdir.Layout
import Jive5ab.Userdir.Consistency
import Jive5ab.Net.UdpsWriter
import Jive5ab.Net.Multiwriter
import Jive5ab.Dot.Dotzooi
import Jive5ab.Lib.Ere
import Jive5ab.Vbs.ChunkNames
import Jive5ab.Chain.Lifecycle
import Jive5ab.Trackmask.Sanitizing
import Jive5ab.Trackmask.SizesBothWays
import Jive5ab.Trackmask.Blocks
import Jive5ab.Trackmask.StaleMemory
import Jive5ab.Constraints.Sizes
import Jive5ab.Lib.Checked
import Jive5ab.Constraints.Arithmetic
import Jive5ab.Constraints.Completeness
import Jive5ab.Headersearch.OffsetLut
import Jive5ab.Headersearch.Mark4Strict
import Jive5ab.Headersearch.TapeCrc
import Jive5ab.Headersearch.Construct
import Jive5ab.Headersearch.FormatStated
import Jive5ab.Lib.BoyerMoore
import Jive5ab.Headersearch.DataCheck
import Jive5ab.Headersearch.FirstHeader
import Jive5ab.Headersearch.CheckReads
import Jive5ab.Headersearch.Framer
import Jive5ab.Frames.MedianFilter
import Jive5ab.Headersearch.SyncwordSearch
import Jive5ab.Frames.FrameFilter
import Jive5ab.Lib.PerKey
import Jive5ab.Frames.CoalescingSplitter
import Jive5ab.Rsync.KvHeader
import Jive5ab.Net.UdpReader
import Jive5ab.Lib.NumberRange
import Jive5ab.Net.PacketLoss
import Jive5ab.Net.UdpsFlush
import Jive5ab.Lib.ByteMemory
import Jive5ab.Frames.BlockDecompressor
import Jive5ab.Frames.PatternGenerator
import Jive5ab.Frames.FrameChecker
import Jive5ab.Frames.GeneratorChecker
import Jive5ab.Dechannelizer.SwapSignMag
import Jive5ab.Stringutil.UIntRange
import Jive5ab.Streamstor.TransferSize
import Jive5ab.Streamstor.DiskReader
import Jive5ab.Buffering.Bufferer
import Jive5ab.Headersearch.VdifProbe
import Jive5ab.Headersearch.VdifProbeArithmetic
import Jive5ab.Vbs.ReadTermination
import Jive5ab.ChannelExtractor.Config
import Jive5ab.ChannelExtractor.Codegen
import Jive5ab.ChannelExtractor.Soundness
import Jive5ab.Headersearch.FramerReads
import Jive5ab.Headersearch.FramerBlocks
import Jive5ab.Headersearch.FramerScan
import Jive5ab.Headersearch.FramerFrames
import Jive5ab.Headersearch.FramerComplete
import Jive5ab.Lib.Ring
import Jive5ab.Net.CircularBuffer
import Jive5ab.Net.CircularRefinement
import Jive5ab.Interchain.QueueReader
import Jive5ab.Interchain.Reblocking
import Jive5ab.Lib.Substitution
import Jive5ab.Mk6.ReplaceFields
import Jive5ab.Mk6.Datastreams
import Jive5ab.Lib.Expansion
import Jive5ab.Mountpoint.Pattern
import Jive5ab.Mk6.Groups
import Jive5ab.Mk6.ResolvePatterns
import Jive5ab.Lib.FractionSum
import Jive5ab.Highrestime.Arithmetic
import Jive5ab.Highrestime.Arithmetic
import Jive5ab.Highrestime.GroupLaws
import Jive5ab.Highrestime.GroupLaws
import Jive5ab.Headersearch.CombineResults
import Jive5ab.Vbs.ScanName
import Jive5ab.Vbs.ScanSet
import Jive5ab.Lib.Glob
import Jive5ab.Mountpoint.FindMountpoints
import Jive5ab.Mountpoint.LosesNoMatch
import Jive5ab.Lib.Segments
import Jive5ab.Dot.DayConversion
import Jive5ab.Userdir.Labels
import Jive5ab.Userdir.ScanRoundTrip
import Jive5ab.Lib.Single
import Jive5ab.Bcd.Logarithm
import Jive5ab.Bcd.Conversion
import Jive5ab.Blocks.Pools
import Jive5ab.Blocks.Counting
import Jive5ab.Blocks.Operations
import Jive5ab.Blocks.Exclusive
import Jive5ab.Headersearch.OverflowTest
import Jive5ab.Splitstuff.Outheader
import Jive5ab.Lib.Scanf
import Jive5ab.Dot.VexTime
import Jive5ab.Dot.VexTimeExact
import Jive5ab.Net.NetPort
import Jive5ab.Vbs.ChunkStreams
import Jive5ab.Net.SocketReader
import Jive5ab.Streamstor.EtdFd
import Jive5ab.Userdir.LayoutsAgree
import Jive5ab.Trackmask.Ledger
import Jive5ab.Headersearch.DamagedHeaders
