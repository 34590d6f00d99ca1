import TorEbpf.Lib.Machine
import TorEbpf.Lib.Expand
import TorEbpf.Lib.Marks
import TorEbpf.Lib.Region
import TorEbpf.Lib.Checked
import TorEbpf.Lib.Bytes
import TorEbpf.Lib.Wire
import TorEbpf.Lib.SwapRemove
import TorEbpf.Lib.Events
import TorEbpf.Lib.Heap
import TorEbpf.Lib.RuleList
import TorEbpf.Lib.Keyed
import TorEbpf.Lib.Decimal
import TorEbpf.Lib.Numeral
import TorEbpf.Strings.ParseInt
import TorEbpf.Strings.Scanf
import TorEbpf.Strings.NumberText
import TorEbpf.Lib.Alignment
import TorEbpf.Lib.Lines
import TorEbpf.Ubpf.Instruction
import TorEbpf.Ubpf.Exec
import TorEbpf.Ubpf.Validate
import TorEbpf.Ubpf.Rewrite
import TorEbpf.Ubpf.Layout
import TorEbpf.Ubpf.CheckBlock
import TorEbpf.Ubpf.ControlFlow
import TorEbpf.Ubpf.Sandbox
import TorEbpf.Ubpf.Preservation
import TorEbpf.Ubpf.DevFunctions
import TorEbpf.Ubpf.Elf
import TorEbpf.Ubpf.ElfSafety
import TorEbpf.Hs.TimePeriod
import TorEbpf.Hs.Descriptors
import TorEbpf.Or.CreateCell
import TorEbpf.Or.CreateFormat
import TorEbpf.Or.ExtendBody
import TorEbpf.Or.ExtendCell
import TorEbpf.Or.PluginOffer
import TorEbpf.Or.PluginTransfer
import TorEbpf.Or.Policies
import TorEbpf.Or.Sendme
import TorEbpf.Or.Circpad
import TorEbpf.Or.CircpadBins
import TorEbpf.Or.CircpadSampling
import TorEbpf.Lib.Series
import TorEbpf.Lib.Scan
import TorEbpf.Or.CircpadTokens
import TorEbpf.Or.CircpadLimits
import TorEbpf.Or.Circuitmux
import TorEbpf.Or.Versions
import TorEbpf.Or.VersionOrder
import TorEbpf.Or.HalfEdge
import TorEbpf.Or.HalfClosed
import TorEbpf.Ctime.DiOps
import TorEbpf.Container.Pqueue
import TorEbpf.Container.Smartlist
import TorEbpf.Container.Bsearch
import TorEbpf.Dirauth.BwWeights
import TorEbpf.Dirauth.BwWeightsSound
import TorEbpf.Dirauth.BwWeightsExist
import TorEbpf.Dirauth.BwTotals
import TorEbpf.Dirauth.DirVote
import TorEbpf.Dirauth.FrequentMembers
import TorEbpf.Dirauth.Params
import TorEbpf.Dirauth.SharedRandom
import TorEbpf.Dirauth.SrConsensus
import TorEbpf.Dirauth.SrState
import TorEbpf.Dircommon.ApplyEdDiff
import TorEbpf.Dircommon.CalcChanges
import TorEbpf.Dircommon.LongestCommon
import TorEbpf.Dircommon.EdDiff
import TorEbpf.Dircommon.ConsDiffText
import TorEbpf.Buffers.Buf
import TorEbpf.Buffers.Runs
import TorEbpf.Lib.Memmove
import TorEbpf.Or.PluginMemory
import TorEbpf.Or.PluginPayload
import TorEbpf.Or.PluginSend
import TorEbpf.Or.PluginPaths
import TorEbpf.Or.PluginFile
import TorEbpf.Or.PluginText
import TorEbpf.Or.PluginHooks
import TorEbpf.Or.PlugCell
import TorEbpf.Lib.Framing
import TorEbpf.Or.Link
import TorEbpf.Or.ExtendedCell
import TorEbpf.Or.SendmeRandomness
import TorEbpf.Or.Protover
import TorEbpf.Or.ProtoverEncode
import TorEbpf.Or.ProtoverQuery
import TorEbpf.Or.ProtoverVote
import TorEbpf.Or.Protoset
import TorEbpf.Buffers.Search
import TorEbpf.Or.PolicyLookup
import TorEbpf.Net.AddrCompare
import TorEbpf.Net.InetText
import TorEbpf.Net.InetRoundTrip
import TorEbpf.Net.PtrName
import TorEbpf.Net.MaskPorts
import TorEbpf.Net.MaskPortsGrammar
import TorEbpf.Lib.Calendar
import TorEbpf.Encoding.TimeFmt
import TorEbpf.Encoding.TimeText
import TorEbpf.Lib.Buffer
import TorEbpf.Encoding.Binascii
import TorEbpf.Encoding.Base64
import TorEbpf.Encoding.Base64Encode
import TorEbpf.Encoding.Base64RoundTrip
import TorEbpf.Encoding.Cstring
import TorEbpf.Encoding.CstringPasses
import TorEbpf.Encoding.Kvline
import TorEbpf.Encoding.KvlineRoundTrip
import TorEbpf.Lib.Saturation
import TorEbpf.Evloop.TokenBucket
import TorEbpf.Lib.Fifo
import TorEbpf.Lib.Residues
import TorEbpf.Nodelist.NodeSelect
import TorEbpf.Proto.Socks
import TorEbpf.Relay.OnionQueue
import TorEbpf.Client.AddressRewrite
import TorEbpf.Client.VirtAddress
import TorEbpf.Client.VirtRange
import TorEbpf.Nodelist.Routerset
import TorEbpf.Nodelist.RoutersetNodes
import TorEbpf.Nodelist.PolicyItem
import TorEbpf.Nodelist.RoutersetUnion
import TorEbpf.Lib.Ring
import TorEbpf.Hs.Hsdirs
import TorEbpf.Or.VersionStatus
import TorEbpf.Hs.Replaycache
import TorEbpf.Dirauth.RouterstatusConsensus
import TorEbpf.Encoding.Confline
import TorEbpf.Confmgt.EscapeValue
import TorEbpf.Encoding.TorrcFormat
import TorEbpf.Lib.FirstBest
import TorEbpf.Client.EntryGuards
import TorEbpf.Client.GuardUpgrade
import TorEbpf.Lib.Decay
import TorEbpf.Or.CircuitmuxEwma
import TorEbpf.Lib.Span
import TorEbpf.Memarea.Memarea
import TorEbpf.Strings.SplitString
import TorEbpf.Dirauth.SrDisk
import TorEbpf.Lib.InFlight
import TorEbpf.Or.CircpadNegotiate
import TorEbpf.Or.RelayCrypto
import TorEbpf.Container.HashTable
import TorEbpf.Dirauth.Keypin
import TorEbpf.Lib.X86
import TorEbpf.Ubpf.Shape
import TorEbpf.Ubpf.Jit
import TorEbpf.Ubpf.JitDecode
import TorEbpf.Ubpf.JitLayout
import TorEbpf.Ubpf.JitAlu
import TorEbpf.Ubpf.JitStep
import TorEbpf.Ubpf.JitRun
