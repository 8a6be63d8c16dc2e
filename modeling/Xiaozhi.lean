import Xiaozhi.Audio.Aliasing
import Xiaozhi.App.Uploading
import Xiaozhi.App.StaleErrors
import Xiaozhi.App.Reconnecting
import Xiaozhi.App.Handshake
import Xiaozhi.Client.Outcomes
import Xiaozhi.App.Attempts
import Xiaozhi.App.Texts
import Xiaozhi.App.BargeIn
import Xiaozhi.App.Draining
import Xiaozhi.App.Greeting
import Xiaozhi.Startup.Gate
import Xiaozhi.App.Listening
import Xiaozhi.App.Encoding
import Xiaozhi.Client.Writable
import Xiaozhi.Client.Faithful
import Xiaozhi.Client.Fragmented
import Xiaozhi.App.EventQueue
import Xiaozhi.App.Lines
import Xiaozhi.Audio.Dump
import Xiaozhi.Audio.Fifo
import Xiaozhi.Audio.Peak
import Xiaozhi.Audio.Silence
import Xiaozhi.Audio.WakeUp
import Xiaozhi.Audio.Writing
import Xiaozhi.Client.Decoding
import Xiaozhi.Protocol.Builders
import Xiaozhi.Startup.Reading
import Xiaozhi.Startup.Pipe
import Xiaozhi.Startup.Interrupting
import Xiaozhi.App.Turns
import Xiaozhi.App.Recording
import Xiaozhi.Protocol.Unknown
import Xiaozhi.Protocol.PrintSafety
import Xiaozhi.App.Deliveries
import Xiaozhi.App.Alternating
import Xiaozhi.App.Finishing
import Xiaozhi.Protocol.TreeReading
