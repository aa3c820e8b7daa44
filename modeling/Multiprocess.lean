import Multiprocess.Loop.AsyncCleanup
import Multiprocess.Loop.Atomic
import Multiprocess.Loop.Progress
import Multiprocess.Server.Chain
import Multiprocess.Server.Deadlock
import Multiprocess.Server.Cancel
import Multiprocess.Server.Release
import Multiprocess.Client.Invoke
import Multiprocess.Thread.Cancel
import Multiprocess.Thread.Order
import Multiprocess.Thread.Handles
import Multiprocess.Thread.Lifetime
import Multiprocess.Thread.Waiter
import Multiprocess.Thread.Handover
import Multiprocess.Connection.Cleanup
import Multiprocess.Connection.Dangling
import Multiprocess.Connection.Stream
import Multiprocess.Object.Lifetime
import Multiprocess.Context.RequestThreads
import Multiprocess.Context.Affinity
import Multiprocess.Context.Nesting
import Multiprocess.Context.Entries
import Multiprocess.Context.SetThread
import Multiprocess.Codec.Integral
import Multiprocess.Codec.Scalar
import Multiprocess.Codec.Dest
import Multiprocess.Codec.Overloads
import Multiprocess.Codec.RoundTrip
import Multiprocess.Codec.Presence
import Multiprocess.Codec.Sizes
import Multiprocess.Codec.Duplicates
import Multiprocess.Stub.Fields
import Multiprocess.Stub.Slices
import Multiprocess.Stub.Inheritance
import Multiprocess.Stub.Exceptions
import Multiprocess.Stub.Throws
import Multiprocess.Log.Escape
import Multiprocess.Process.Spawn
import Multiprocess.Loop.Incoming
