import WgNx.ByteLayout
import WgNx.OutputMachine
import WgNx.WordBitmap
import WgNx.ReplayCounter
import WgNx.ReplayHistory
import WgNx.ReplayFilter
import WgNx.WireMessages
import WgNx.CryptoPrimitives
import WgNx.TunnelState
import WgNx.TunnelSetup
import WgNx.NoiseHandshake
import WgNx.NoiseAgreement
import WgNx.TransportSend
import WgNx.TransportReceive
import WgNx.ReceiveLeftovers
import WgNx.Authentication
import WgNx.RetryLoop
import WgNx.SessionCalls
import WgNx.ConnectOutcome
import WgNx.RekeyOutcome
import WgNx.EndpointMachine
import WgNx.SessionStore
import WgNx.CounterNonces
import WgNx.NonceUniqueness
import WgNx.SessionUses
import WgNx.UseRules
import WgNx.PlaintextOrigin
import WgNx.SessionExpiry
import WgNx.IndexLedger
import WgNx.SessionDispatch
import WgNx.CrossedOpening
import WgNx.OpeningParty
import WgNx.OpeningNetwork
import WgNx.PeerLinks
import WgNx.AutoConnect
import WgNx.RemoteKeys
import WgNx.RejectedHandshakes
import WgNx.CookieReplies
import WgNx.InitReplay
import WgNx.PeerFrames
import WgNx.KeepaliveRaces
import WgNx.IntrusiveList
import WgNx.ReceiveSlots
import WgNx.RelayRing
import WgNx.RelayBurst
import WgNx.RingWrap
import WgNx.UdpRelay
import WgNx.LwipIngress
import WgNx.LwipSlots
import WgNx.TcpRelay
import WgNx.TcpTable
import WgNx.TcpStreams
import WgNx.RelayPorts
import WgNx.TransportRoundTrip
import WgNx.BlockFeed
import WgNx.ByteMemory
import WgNx.WordArith
import WgNx.WordBytes
import WgNx.ChaChaBlock
import WgNx.ChaChaStream
import WgNx.PolyHash
import WgNx.PolyNeon
import WgNx.PolyPortable
import WgNx.CheckedWords
import WgNx.PolyTag
import WgNx.EncryptThenMac
import WgNx.AeadNeon
import WgNx.AeadPortable
import WgNx.Blake2s
import WgNx.Blake2Compress
import WgNx.Blake2Stream
import WgNx.Base64
import WgNx.KeyText
import WgNx.SignedWords
import WgNx.MixedRadix
import WgNx.MontgomeryLadder
import WgNx.Curve25519Prime
import WgNx.FieldLimbs
import WgNx.FieldBytes
import WgNx.FieldInverse
import WgNx.X25519
import WgNx.AeadContext
import WgNx.CryptoSuite
import WgNx.StopCondition
import WgNx.ReplayMemory
import WgNx.DeliveryUniqueness
import WgNx.UdpReplies
