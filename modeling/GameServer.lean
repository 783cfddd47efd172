import GameServer.DbStatements
import GameServer.ReceiveBounds
import GameServer.Room
import GameServer.Sending
import GameServer.SessionDecode
import GameServer.ThreadPoolProgress
import GameServer.DbConfined
import GameServer.DbRoundTrip
import GameServer.Base.EventLoop
import GameServer.IoService
import GameServer.IoServiceSafety
import GameServer.IoServiceUsers
import GameServer.PacketEncode
import GameServer.PacketRoundTrip
import GameServer.Logger
import GameServer.DbGetUser
import GameServer.Base.NumberStream
import GameServer.MakeBodyAgree
import GameServer.Base.SixBit
import GameServer.Base64
import GameServer.Base.CString
import GameServer.Login
import GameServer.Singleton
import GameServer.Base.Family
import GameServer.ServerProcess
import GameServer.ServerProcessRooms
import GameServer.ServerProcessProgress
import GameServer.ThreadPoolShutdown
import GameServer.Base.Framing
import GameServer.ClientLoop
import GameServer.ReceiverStream
import GameServer.World
import GameServer.WorldDown
import GameServer.WorldUp
import GameServer.Base.BitString
import GameServer.Base.IteratedHash
import GameServer.Base.Sha2
import GameServer.Sha256
import GameServer.Sha256Compress
import GameServer.Sha256Digest
import GameServer.Base.SqlConnection
import GameServer.DbRuns
import GameServer.Deployment
import GameServer.DeploymentDelivery
import GameServer.Base64Text
import GameServer.DeploymentReplies
