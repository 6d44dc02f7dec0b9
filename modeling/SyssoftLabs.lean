import SyssoftLabs.Lab4.Parser.Printing
import SyssoftLabs.Lab4.Parser.Rejection
import SyssoftLabs.Lab4.Parser.Operators
import SyssoftLabs.Lab4.Parser.Words
import SyssoftLabs.Lab4.Parser.Background
import SyssoftLabs.Lab4.Parser.Ranges
import SyssoftLabs.Lab4.Parser.Rescanning
import SyssoftLabs.Lab4.Parser.LineBuffer
import SyssoftLabs.Lab4.Parser.Copies
import SyssoftLabs.Lab4.Shell.SingleShell
import SyssoftLabs.Lab4.Shell.Deadlock
import SyssoftLabs.Lab4.Shell.Leaks
import SyssoftLabs.Lab4.Shell.WriteEnds
import SyssoftLabs.Lab4.Editor.Coherence
import SyssoftLabs.Lab4.Editor.Overrun
import SyssoftLabs.Lab4.Editor.Cycling
import SyssoftLabs.Lab4.Editor.Screen
import SyssoftLabs.Lab4.Jobs
import SyssoftLabs.Lab4.JobStorage
import SyssoftLabs.Lab4.Variables
import SyssoftLabs.Lab4.Integers
import SyssoftLabs.Lab5.LateInit
import SyssoftLabs.Lab5.TwoThreads
import SyssoftLabs.Lab5.Orbit
import SyssoftLabs.Lab5.Puts
import SyssoftLabs.Lab5.Status
import SyssoftLabs.Lab5.WorkingTime
import SyssoftLabs.Lab5.UnixServer
import SyssoftLabs.Lab5.Pipes.Ending
import SyssoftLabs.Lab6.QueueSafety
import SyssoftLabs.Lab6.Server.Accounting
import SyssoftLabs.Lab6.Server.Exclusion
import SyssoftLabs.Lab6.Server.Service
import SyssoftLabs.Lab6.Server.WakeUps
import SyssoftLabs.Lab6.Session.InStep
import SyssoftLabs.Lab6.Session.Stale
import SyssoftLabs.Lab6.Session.EndOfStream
import SyssoftLabs.Lab6.Session.Memory
import SyssoftLabs.Lab5.Progress
import SyssoftLabs.Lab5.Unlocked
import SyssoftLabs.Framework.Mutex
import SyssoftLabs.Lab5.Multithread6
import SyssoftLabs.Lab5.UnixAnswers
import SyssoftLabs.Lab6.Directory.Answers
import SyssoftLabs.Framework.LiveCells
import SyssoftLabs.Lab4.ErrorCode
import SyssoftLabs.Lab4.Notices
import SyssoftLabs.Lab4.Session
import SyssoftLabs.Lab4.Terminal
import SyssoftLabs.Lab6.Server.Lost
import SyssoftLabs.Lab4.Shell.Builtins
import SyssoftLabs.Lab4.Shell.Nesting
import SyssoftLabs.Lab4.Shell.Undoing
import SyssoftLabs.Lab5.Leftovers
import SyssoftLabs.Lab6.Directory.Progress
import SyssoftLabs.Lab6.Directory.Waiting
