import KernelExperiment.Lib.Runs
import KernelExperiment.Lib.Simulation
import KernelExperiment.Lib.Population
import KernelExperiment.Lib.Chain
import KernelExperiment.Lib.Region
import KernelExperiment.Lib.Ring
import KernelExperiment.Lib.Blocks
import KernelExperiment.Lib.ByteFile
import KernelExperiment.Lib.Purge
import KernelExperiment.Lib.Ledger
import KernelExperiment.Kernel.Abi
import KernelExperiment.Kernel.Files
import KernelExperiment.Event.Event
import KernelExperiment.Event.Semaphore
import KernelExperiment.Event.Census
import KernelExperiment.Event.Exclusion
import KernelExperiment.Event.Wakeups
import KernelExperiment.Event.Table
import KernelExperiment.Event.TableRefinement
import KernelExperiment.Event.TableHistory
import KernelExperiment.Pipe.Device
import KernelExperiment.Pipe.Transfer
import KernelExperiment.Pipe.System
import KernelExperiment.Pipe.Fifo
import KernelExperiment.Pipe.Sessions
import KernelExperiment.Pipe.Bounds
import KernelExperiment.Pipe.Sleepers
import KernelExperiment.Pipe.Poll
import KernelExperiment.Pipe.Locking
import KernelExperiment.Pipe.Lifetime
import KernelExperiment.Scull.Device
import KernelExperiment.Scull.Layout
import KernelExperiment.Scull.Transfer
import KernelExperiment.Scull.Calls
import KernelExperiment.Scull.Ioctl
import KernelExperiment.Scull.ByteStore
import KernelExperiment.Scull.Geometry
import KernelExperiment.Scull.Relabel
import KernelExperiment.Scull.Disclosure
import KernelExperiment.Fixed.Driver
import KernelExperiment.Fixed.Refinement
import KernelExperiment.Fixed.Bounds
import KernelExperiment.Event.Callers
import KernelExperiment.Event.Opening
import KernelExperiment.Event.Retry
import KernelExperiment.Scull.Divisions
import KernelExperiment.Scull.Configuration
import KernelExperiment.Scull.Positions
import KernelExperiment.Scull.Reading
import KernelExperiment.Scull.Ownership
import KernelExperiment.Scull.Observations
import KernelExperiment.Scull.FailedWrites
import KernelExperiment.Lib.Tokens
import KernelExperiment.Shell.Strings
import KernelExperiment.Shell.Parse
import KernelExperiment.Shell.Syntax
import KernelExperiment.Shell.Stages
import KernelExperiment.Shell.Lines
import KernelExperiment.Shell.Segments
import KernelExperiment.Shell.Buffers
import KernelExperiment.Shell.Calls
import KernelExperiment.Shell.Children
import KernelExperiment.Shell.Descriptors
import KernelExperiment.Lib.Interval
import KernelExperiment.Timer.Measured
import KernelExperiment.Lib.Terminated
import KernelExperiment.Proc.Value
import KernelExperiment.Proc.Label
import KernelExperiment.Lib.Chase
import KernelExperiment.Proc.Ancestors
import KernelExperiment.Proc.Listing
import KernelExperiment.Lib.Tenancy
import KernelExperiment.Access.Gate
import KernelExperiment.Access.Users
import KernelExperiment.Access.Waiting
import KernelExperiment.Access.Single
import KernelExperiment.Access.Trims
import KernelExperiment.Shell.Tables
import KernelExperiment.Lib.Records
import KernelExperiment.Proc.Conversions
import KernelExperiment.Scull.Procmem
import KernelExperiment.Pipe.Report
import KernelExperiment.Lib.Ranking
import KernelExperiment.Lib.Trace
import KernelExperiment.Lib.Queue
import KernelExperiment.Pipe.Streams
import KernelExperiment.Pipe.Progress
import KernelExperiment.Pipe.Atomicity
import KernelExperiment.Pipe.Moves
import KernelExperiment.Pipe.Pollers
import KernelExperiment.Pipe.Reopening
import KernelExperiment.Pipe.Notify
import KernelExperiment.Access.Private
import KernelExperiment.Shell.Plumbing
import KernelExperiment.Shell.PipeEnds
import KernelExperiment.Shell.Pipelines
import KernelExperiment.Scull.SeqFile
import KernelExperiment.Kernel.Chrdevs
import KernelExperiment.Module.Loading
import KernelExperiment.Module.Cycle
import KernelExperiment.Module.Unloading
