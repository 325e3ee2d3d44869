import Beryllium.Audio.Aec
import Beryllium.Audio.CoeffFile
import Beryllium.Audio.Convolution
import Beryllium.Audio.Fir
import Beryllium.Audio.FirLimits
import Beryllium.Audio.FirLoops
import Beryllium.Audio.FirReads
import Beryllium.Audio.Locks
import Beryllium.Audio.PcmTimestamp
import Beryllium.Audio.Platform
import Beryllium.Audio.Reference
import Beryllium.Audio.Timestamps
import Beryllium.Gralloc.Gbm
import Beryllium.Gralloc.Handles
import Beryllium.Gralloc.LockState
import Beryllium.Gralloc.Locking
import Beryllium.Gralloc.Nesting
import Beryllium.Gralloc.Planes
import Beryllium.Json.Completeness
import Beryllium.Json.Grammar
import Beryllium.Json.Parse
import Beryllium.Json.Parser
import Beryllium.Json.Reader
import Beryllium.Json.Readings
import Beryllium.Json.Soundness
import Beryllium.Json.Termination
import Beryllium.Lib.Block
import Beryllium.Lib.CText
import Beryllium.Lib.Chain
import Beryllium.Lib.Dict
import Beryllium.Lib.EarlyExit
import Beryllium.Lib.History
import Beryllium.Lib.LittleEndian
import Beryllium.Lib.LockOrder
import Beryllium.Lib.Memory
import Beryllium.Lib.Outcome
import Beryllium.Lib.Path
import Beryllium.Lib.Pieces
import Beryllium.Lib.ProbeTable
import Beryllium.Lib.Replica
import Beryllium.Lib.RingScan
import Beryllium.Lib.Rounds
import Beryllium.Lib.TlvWriter
import Beryllium.Lib.Transcript
import Beryllium.PdMapper.Assoc
import Beryllium.PdMapper.Bounds
import Beryllium.PdMapper.DomainList
import Beryllium.PdMapper.Maps
import Beryllium.PdMapper.Server
import Beryllium.Qmi.Acceptance
import Beryllium.Qmi.Decode
import Beryllium.Qmi.Decoding
import Beryllium.Qmi.ElemInfo
import Beryllium.Qmi.Elements
import Beryllium.Qmi.Encode
import Beryllium.Qmi.Encoding
import Beryllium.Qmi.Frame
import Beryllium.Qmi.Framing
import Beryllium.Qmi.Grammar
import Beryllium.Qmi.Groups
import Beryllium.Qmi.Layout
import Beryllium.Qmi.Order
import Beryllium.Qmi.Overrun
import Beryllium.Qmi.Packet
import Beryllium.Qmi.Payload
import Beryllium.Qmi.Progress
import Beryllium.Qmi.RoundTrip
import Beryllium.Qmi.Script
import Beryllium.Qmi.Service
import Beryllium.Qmi.Truncation
import Beryllium.Qmi.Tables
import Beryllium.Qmi.Transcript
import Beryllium.Qrtr.Authenticity
import Beryllium.Qrtr.Bye
import Beryllium.Qrtr.Convergence
import Beryllium.Qrtr.Decode
import Beryllium.Qrtr.Effects
import Beryllium.Qrtr.FiniteTable
import Beryllium.Qrtr.Framing
import Beryllium.Qrtr.ItemList
import Beryllium.Qrtr.Lookups
import Beryllium.Qrtr.Map
import Beryllium.Qrtr.MapInvariant
import Beryllium.Qrtr.MapRefinement
import Beryllium.Qrtr.MapRun
import Beryllium.Qrtr.NameServer
import Beryllium.Qrtr.Network
import Beryllium.Qrtr.Observer
import Beryllium.Qrtr.PollSet
import Beryllium.Qrtr.ProbeRuns
import Beryllium.Qrtr.Programs
import Beryllium.Qrtr.Publish
import Beryllium.Qrtr.Registry
import Beryllium.Qrtr.Snapshot
import Beryllium.Qrtr.Table
import Beryllium.Qrtr.Waiter
import Beryllium.Rmtfs.Allocation
import Beryllium.Rmtfs.Callers
import Beryllium.Rmtfs.Handles
import Beryllium.Rmtfs.Iovec
import Beryllium.Rmtfs.MainLoop
import Beryllium.Rmtfs.Sectors
import Beryllium.Rmtfs.Server
import Beryllium.Rmtfs.Storage
import Beryllium.Rmtfs.Transfer
import Beryllium.Rmtfs.Wire
import Beryllium.Tqftp.Blocks
import Beryllium.Tqftp.Datagram
import Beryllium.Tqftp.Departure
import Beryllium.Tqftp.Descriptors
import Beryllium.Tqftp.Framing
import Beryllium.Tqftp.Oack
import Beryllium.Tqftp.Reading
import Beryllium.Tqftp.Server
import Beryllium.Tqftp.Translate
import Beryllium.Tqftp.Window
import Beryllium.Tqftp.Writing
