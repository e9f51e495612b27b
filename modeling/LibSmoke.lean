import LibSmoke.Lib.Framing
import LibSmoke.Lib.Keyed
import LibSmoke.Knx.RingBuffer
import LibSmoke.Knx.Telegram
import LibSmoke.Knx.MultiRings
import LibSmoke.Knx.Backend
import LibSmoke.Knx.PktWrapper
import LibSmoke.Knx.Reassembly
import LibSmoke.Knx.Delivery
import LibSmoke.Knx.Overlong
import LibSmoke.Knx.Loss
import LibSmoke.Smoke.Aes
import LibSmoke.Smoke.Client
import LibSmoke.Lib.ElemSymm
import LibSmoke.Sban.Ecp
import LibSmoke.Sban.Lockstep
import LibSmoke.Knx.NodeCounter
import LibSmoke.Knx.Sknx
import LibSmoke.Knx.MkaKeyExchange
import LibSmoke.Knx.Counting
import LibSmoke.Knx.Agreement
import LibSmoke.Knx.LinuxTcp
import LibSmoke.Lib.Merging
import LibSmoke.Smoke.Server
import LibSmoke.Smoke.Relay
import LibSmoke.Knx.Handshake
import LibSmoke.Knx.Intake
import LibSmoke.Smoke.Init
import LibSmoke.Smoke.Handover
import LibSmoke.Lib.Custody
import LibSmoke.Smoke.Descriptors
import LibSmoke.Knx.LinuxTpuart
import LibSmoke.Knx.Sending
import LibSmoke.Knx.Steps
import LibSmoke.Knx.Network
import LibSmoke.Knx.Neighbours
import LibSmoke.Sban.Bd1
import LibSmoke.Knx.Bd1KeyExchange
import LibSmoke.Knx.Cycle
import LibSmoke.Knx.Bd2KeyExchange
import LibSmoke.Knx.Chair
import LibSmoke.Knx.Gdh2KeyExchange
import LibSmoke.Knx.Chain
import LibSmoke.Knx.KeyAlgorithm
import LibSmoke.Knx.Device
import LibSmoke.Knx.Restart
import LibSmoke.Knx.Sessions
import LibSmoke.Knx.Leftovers
import LibSmoke.Lib.Items
import LibSmoke.Knx.Demux
import LibSmoke.Knx.Addressing
import LibSmoke.Knx.Copies
import LibSmoke.Knx.Gdh2Reads
import LibSmoke.Knx.OneEach
import LibSmoke.Knx.Slots
import LibSmoke.Knx.Served
import LibSmoke.Knx.RingWords
import LibSmoke.Knx.Recycling
import LibSmoke.Knx.MiosixUsart
import LibSmoke.Knx.Membership
import LibSmoke.Lib.Lifetimes
import LibSmoke.Smoke.Records
import LibSmoke.Knx.Contexts
import LibSmoke.Knx.MkaCalls
import LibSmoke.Knx.Bd1Calls
import LibSmoke.Knx.MkaRounds
import LibSmoke.Knx.Positions
import LibSmoke.Knx.Timing
import LibSmoke.Lib.Digits
import LibSmoke.Lib.Jacobian
import LibSmoke.Sban.Comb
import LibSmoke.Sban.Curve
import LibSmoke.Sban.CombTable
import LibSmoke.Sban.CombMul
import LibSmoke.Lib.Primality
import LibSmoke.Sban.Exact
import LibSmoke.Sban.Secp256r1
import LibSmoke.Sban.NistMod
import LibSmoke.Knx.Passing
import LibSmoke.Knx.Refinement
import LibSmoke.Knx.Progress
import LibSmoke.Knx.Online
import LibSmoke.Lib.Chaining
import LibSmoke.Smoke.AesBlocks
