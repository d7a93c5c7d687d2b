import LinuxServer.TimerListRuns
import LinuxServer.TimerListOrder
import LinuxServer.IdleServerCompleteness
import LinuxServer.IdleServerTimers
import LinuxServer.TimeWheelTurn
import LinuxServer.HttpGrammar
import LinuxServer.HttpBounds
import LinuxServer.LevelEdgeServer
import LinuxServer.OneshotWorker
import LinuxServer.OneshotServer
import LinuxServer.PollChatDelivery
import LinuxServer.PollChatOrder
import LinuxServer.PollChatRounds
import LinuxServer.PollChatInterest
import LinuxServer.ShmChatBounds
import LinuxServer.ShmChatEdges
import LinuxServer.ShmChatStop
import LinuxServer.ShmChatFiles
import LinuxServer.ShmChatPids
import LinuxServer.ShmChatForward
import LinuxServer.HttpRoundTrip
import LinuxServer.IdleServerSafety
import LinuxServer.IdleLoopSignals
import LinuxServer.IpcPrivate
import LinuxServer.ChatSystem
import LinuxServer.ShmChatReaping
import LinuxServer.TimerListMain
import LinuxServer.TimeWheelEnd
import LinuxServer.FileServer
