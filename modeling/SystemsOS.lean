import SystemsOS.Kernel.Partition
import SystemsOS.Kernel.Progress
import SystemsOS.Kernel.Deadline
import SystemsOS.Kernel.Spawn
import SystemsOS.Kernel.Find
import SystemsOS.Kernel.Quantum
import SystemsOS.Queue.Refinement
import SystemsOS.Queue.Conservation
import SystemsOS.FileSystem.Tree
import SystemsOS.FileSystem.Map
import SystemsOS.FileSystem.RoundTrip
import SystemsOS.FileSystem.Isolation
import SystemsOS.FileSystem.Append
import SystemsOS.FileSystem.Moves
import SystemsOS.FileSystem.Delete
import SystemsOS.FileSystem.Extent
import SystemsOS.Serial.Enabled
import SystemsOS.Serial.Agreement
import SystemsOS.Syscall.Read
import SystemsOS.Syscall.Write
import SystemsOS.Shell.Lines
import SystemsOS.Console.Printf
import SystemsOS.Keyboard.Translate
import SystemsOS.Bootstrap.Placement
import SystemsOS.Bootstrap.Boot
import SystemsOS.FileSystem.Observe
import SystemsOS.Processor.Runs
import SystemsOS.Kernel.Waiting
import SystemsOS.System.Keyboard
import SystemsOS.System.Terminal
import SystemsOS.System.Progress
