import Wasmux.Tables
import Wasmux.Signals
import Wasmux.Blocking
import Wasmux.Closing
import Wasmux.Interrupts
import Wasmux.Deadlines
import Wasmux.Deaths
import Wasmux.Handover
import Wasmux.Balance
import Wasmux.Streaming
import Wasmux.Histories
import Wasmux.Retries
import Wasmux.Shadows
import Wasmux.Heap
import Wasmux.MemVfs
import Wasmux.Mounted
import Wasmux.Startup
import Wasmux.Passing
import Wasmux.Moving
import Wasmux.Mild
import Wasmux.Modes
import Wasmux.Ceiling
import Wasmux.Opening
import Wasmux.Faults
import Wasmux.Vectors
import Wasmux.Namespace
import Wasmux.Lineage
import Wasmux.Restoring
import Wasmux.Arrays
import Wasmux.Seeking
import Wasmux.Listing
import Wasmux.Killing
import Wasmux.Delivery
import Wasmux.Draining
import Wasmux.Plumbing
import Wasmux.Polling
import Wasmux.Traffic
import Wasmux.Writing
import Wasmux.Appending
import Wasmux.Argv
import Wasmux.Budgets
import Wasmux.Rounds
import Wasmux.Stored
import Wasmux.Removing
import Wasmux.Launching
import Wasmux.Scripts
import Wasmux.Timers
import Wasmux.Weaving
import Wasmux.Sleeping
import Wasmux.Slots
import Wasmux.Lowest
import Wasmux.Owner
import Wasmux.Mortality
import Wasmux.Capture
import Wasmux.Libc
import Wasmux.Lending
import Wasmux.Jumps
import Wasmux.Waiting
import Wasmux.Settings
import Wasmux.Fifos
import Wasmux.Feeding
import Wasmux.Loops
import Wasmux.Rotation
import Wasmux.Verdict
import Wasmux.Reckoning
import Wasmux.Parking
import Wasmux.Trees
