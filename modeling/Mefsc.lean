import Mefsc.Core.Bytes
import Mefsc.Core.Proc
import Mefsc.Core.TextIn
import Mefsc.Core.Halting
import Mefsc.Core.Script
import Mefsc.Core.Trace
import Mefsc.Core.Stamped
import Mefsc.Core.Seen
import Mefsc.Core.Windows
import Mefsc.Core.Zoom
import Mefsc.Core.Net
import Mefsc.Core.Within
import Mefsc.Core.Cut
import Mefsc.Core.FileSys
import Mefsc.Core.Confine
import Mefsc.Core.Way
import Mefsc.Core.Folder
import Mefsc.Core.Channel
import Mefsc.Core.Lockstep
import Mefsc.Core.Shared
import Mefsc.Core.Lts
import Mefsc.Core.Fair
import Mefsc.Core.Custody
import Mefsc.Core.OpenFile
import Mefsc.L1Encoding.Sodium
import Mefsc.L1Encoding.SessionEnc
import Mefsc.L1Encoding.Unwrap
import Mefsc.L1Encoding.Offers
import Mefsc.L1Encoding.Socket
import Mefsc.L1Encoding.RecvFully
import Mefsc.L1Encoding.FrameLengths
import Mefsc.L2Machine.TwoSlotBuffer
import Mefsc.L2Machine.Ownership
import Mefsc.L2Machine.Work
import Mefsc.L2Machine.Feed
import Mefsc.L3Protocol.Wire
import Mefsc.L3Protocol.Login
import Mefsc.L3Protocol.Server
import Mefsc.L3Protocol.ServerParts
import Mefsc.L3Protocol.Client
import Mefsc.L3Protocol.ServerRuns
import Mefsc.L3Protocol.ClientRuns
import Mefsc.L3Protocol.HandleConn
import Mefsc.L3Protocol.ClientConn
import Mefsc.L3Protocol.Prompt
import Mefsc.L4App.RoundTrip
import Mefsc.L4App.Verdict
import Mefsc.L4App.AtRest
import Mefsc.L4App.Complete
import Mefsc.L4App.Isolation
import Mefsc.L4App.Turn
import Mefsc.L4App.Stop
import Mefsc.L4App.Refinement
import Mefsc.L4App.NoWait
import Mefsc.L4App.Reported
import Mefsc.L4App.Roles
import Mefsc.L4App.Ends
import Mefsc.L4App.Exceptions
import Mefsc.L4App.Admission
import Mefsc.L4App.Names
import Mefsc.L4App.Sending
import Mefsc.L4App.ShortSends
import Mefsc.L4App.Nonces
import Mefsc.L4App.ClientNonces
import Mefsc.L4App.Intake
import Mefsc.L4App.Resend
import Mefsc.L4App.Fetch
import Mefsc.L4App.Replay
import Mefsc.L4App.Connection
import Mefsc.L4App.Vault
import Mefsc.L4App.Typed
import Mefsc.L4App.Memory
import Mefsc.L4App.UploadMemory
import Mefsc.L5Concurrency.Pool
import Mefsc.L5Concurrency.Registry
import Mefsc.L5Concurrency.Ledger
import Mefsc.L5Concurrency.Shutdown
import Mefsc.L5Concurrency.Dispatch
import Mefsc.L5Concurrency.Leaving
import Mefsc.L5Concurrency.Listing
import Mefsc.L5Concurrency.SharedFile
import Mefsc.L5Concurrency.Tenants
