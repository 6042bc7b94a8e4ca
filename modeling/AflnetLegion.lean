import AflnetLegion.Lib.Bitmap
import AflnetLegion.Lib.Count
import AflnetLegion.Lib.GreedyCover
import AflnetLegion.Lib.While
import AflnetLegion.Lib.Draws
import AflnetLegion.Lib.Blocks
import AflnetLegion.Mcts.Safety
import AflnetLegion.Mcts.Colour
import AflnetLegion.Mcts.Alias
import AflnetLegion.Mcts.BlackChain
import AflnetLegion.Mcts.Split
import AflnetLegion.Mcts.Soundness
import AflnetLegion.Mcts.Necessity
import AflnetLegion.Mcts.Discovery
import AflnetLegion.Mcts.Balance
import AflnetLegion.Mcts.Follow
import AflnetLegion.Mcts.Unmark
import AflnetLegion.Mcts.ExactMatch
import AflnetLegion.Mcts.Gain
import AflnetLegion.Messages.Successive
import AflnetLegion.Messages.ReplayFile
import AflnetLegion.Protocol.Monotone
import AflnetLegion.Protocol.Covers
import AflnetLegion.Protocol.Dns
import AflnetLegion.Protocol.Framed
import AflnetLegion.Protocol.Ssh
import AflnetLegion.Protocol.Tls
import AflnetLegion.Protocol.Dicom
import AflnetLegion.Protocol.Dtls
import AflnetLegion.Protocol.SshResponse
import AflnetLegion.Protocol.TlsCodes
import AflnetLegion.Protocol.DtlsResponse
import AflnetLegion.Protocol.DtlsRecords
import AflnetLegion.Protocol.StatusLines
import AflnetLegion.Protocol.DnsResponse
import AflnetLegion.Queue.Replay
import AflnetLegion.Queue.LastRegion
import AflnetLegion.Queue.TopRated
import AflnetLegion.Queue.RefCount
import AflnetLegion.Queue.Cull
import AflnetLegion.Queue.Favored
import AflnetLegion.Queue.Pending
import AflnetLegion.Queue.SelectM2
import AflnetLegion.Queue.Winner
import AflnetLegion.Queue.Seek
import AflnetLegion.State.Registered
import AflnetLegion.State.FuzzedMap
import AflnetLegion.State.Choosing
import AflnetLegion.State.Names
import AflnetLegion.Coverage.NewBits
import AflnetLegion.Coverage.Findings
import AflnetLegion.Mutation.Bitflip
import AflnetLegion.Mutation.Arith
import AflnetLegion.Mutation.Interest
import AflnetLegion.Mutation.Havoc
import AflnetLegion.Mutation.HavocBounds
import AflnetLegion.Mutation.Deterministic
import AflnetLegion.Dictionary.AutoExtras
import AflnetLegion.Dictionary.Ordered
import AflnetLegion.Dictionary.Extras
import AflnetLegion.Dictionary.Encoding
import AflnetLegion.Network.Fresh
import AflnetLegion.Lib.Probing
import AflnetLegion.State.Paths
import AflnetLegion.Exec.Returns
import AflnetLegion.Exec.Agreement
import AflnetLegion.Exec.Faults
import AflnetLegion.Exec.Persistent
import AflnetLegion.Network.Config
import AflnetLegion.Logging.ArrayText
import AflnetLegion.Tmin.Minimal
