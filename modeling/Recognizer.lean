import Recognizer.Source.Run
import Recognizer.Core.Transition
import Recognizer.Core.PathSearch
import Recognizer.Load.Rule
import Recognizer.Run.Step
import Recognizer.Run.Session
import Recognizer.Load.Acquire
import Recognizer.Run.Frame
import Recognizer.Run.Start
import Recognizer.Run.EndOfLine
import Recognizer.Run.History
import Recognizer.Run.Captures
import Recognizer.Run.OneThread
import Recognizer.Run.Live
import Recognizer.Run.Backreference
import Recognizer.Compile.Closure
import Recognizer.Compile.WorkList
import Recognizer.Compile.Frame
import Recognizer.Core.BreadthFirst
import Recognizer.Compile.CompileRegex
import Recognizer.Compile.Coverage
import Recognizer.Core.MarkedRecursion
import Recognizer.Compile.Termination
import Recognizer.Parse.Fragment
import Recognizer.Parse.Owns
import Recognizer.Parse.Constructors
import Recognizer.Core.WordPath
import Recognizer.Parse.Language
import Recognizer.Compile.Keywords
import Recognizer.Parse.IntervalNfa
import Recognizer.Parse.Rule
import Recognizer.Core.Repetition
import Recognizer.Parse.Repetition
import Recognizer.Parse.Interval
import Recognizer.Parse.IntervalMerge
import Recognizer.Parse.NestedIntervals
import Recognizer.Parse.Blank
import Recognizer.Parse.Alternation
import Recognizer.Parse.Reading
import Recognizer.Parse.Bracket
import Recognizer.Parse.IntervalForms
import Recognizer.Parse.Decimal
import Recognizer.Parse.LiteralRun
import Recognizer.Parse.WholePattern
import Recognizer.Parse.Settled
import Recognizer.Parse.WithoutIntervals
import Recognizer.Parse.Stacks
import Recognizer.Parse.Finished
import Recognizer.Core.WindowShift
import Recognizer.Prescan.BoyerMoore
import Recognizer.Prescan.Tables
import Recognizer.Prescan.MultiPattern
import Recognizer.Prescan.RecordedText
import Recognizer.Source.Slist
import Recognizer.Core.Chain
import Recognizer.Slist.Memory
import Recognizer.Slist.Operations
import Recognizer.Slist.Transfer
import Recognizer.Slist.TransferOnMatch
import Recognizer.Slist.Refine
import Recognizer.Slist.Conservation
import Recognizer.Slist.Cursor
import Recognizer.Slist.Iteration
import Recognizer.Source.Rbtree
import Recognizer.Rbtree.Walk
import Recognizer.Rbtree.Pool
import Recognizer.Rbtree.Fixup
import Recognizer.Rbtree.Insert
import Recognizer.Rbtree.History
import Recognizer.Rbtree.Remove
import Recognizer.Rbtree.Recycle
import Recognizer.Source.Streams
import Recognizer.Core.Ring
import Recognizer.Prescan.RecordList
import Recognizer.Prescan.RecordRings
import Recognizer.Prescan.RecordTree
import Recognizer.Prescan.Streams
import Recognizer.Source.NfaAlloc
import Recognizer.Alloc.FreeRing
import Recognizer.Alloc.Session
import Recognizer.Alloc.Refine
import Recognizer.Core.CString
import Recognizer.Source.Output
import Recognizer.Output.Buffer
import Recognizer.Output.Lines
import Recognizer.Output.Events
import Recognizer.Output.Runs
import Recognizer.Core.LeftmostLongest
import Recognizer.Run.CoreAutomaton
import Recognizer.Run.CoreLoad
import Recognizer.Run.CoreAttempt
import Recognizer.Run.CoreSearch
import Recognizer.Run.LeftmostLongest
import Recognizer.Load.Budget
import Recognizer.Run.Modes
import Recognizer.Run.Spans
import Recognizer.Output.Modes
import Recognizer.Output.Ordered
import Recognizer.Output.FirstItem
import Recognizer.Run.Prescan
import Recognizer.Run.Compiled
import Recognizer.Parse.CoreNodes
import Recognizer.Parse.Completed
import Recognizer.Parse.Pattern
import Recognizer.Parse.Positions
import Recognizer.Parse.Descent
import Recognizer.Parse.PatternLanguage
import Recognizer.Run.Pattern
import Recognizer.Core.Lockstep
import Recognizer.Core.Queue
import Recognizer.Source.Threads
import Recognizer.Threads.Placed
import Recognizer.Threads.Represents
import Recognizer.Threads.Load
import Recognizer.Threads.Step
import Recognizer.Threads.Run
import Recognizer.Threads.Session
