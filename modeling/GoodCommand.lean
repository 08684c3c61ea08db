import GoodCommand.Calculator.Agreement
import GoodCommand.Calculator.Buffers
import GoodCommand.Calculator.CRuntime
import GoodCommand.Calculator.CalBstr
import GoodCommand.Calculator.Calls
import GoodCommand.Calculator.Capacity
import GoodCommand.Calculator.Closing
import GoodCommand.Calculator.Correctness
import GoodCommand.Calculator.DoubleStack
import GoodCommand.Calculator.DoubleStackDefs
import GoodCommand.Calculator.Expression
import GoodCommand.Calculator.Mtob
import GoodCommand.Calculator.MtobRun
import GoodCommand.Calculator.Operators
import GoodCommand.Calculator.PostfixText
import GoodCommand.Calculator.Progress
import GoodCommand.Calculator.RoundTrip
import GoodCommand.Calculator.Runs
import GoodCommand.Calculator.Scanner
import GoodCommand.Calculator.Seen
import GoodCommand.Calculator.Simulation
import GoodCommand.Calculator.StackBounds
import GoodCommand.Calculator.StringStack
import GoodCommand.Calculator.StringStackDefs
import GoodCommand.Calculator.Tabs
import GoodCommand.Calculator.Tokens
import GoodCommand.Calculator.Yard
import GoodCommand.CharTables.InRange
import GoodCommand.Comparators.Order
import GoodCommand.Fio.BadFiles
import GoodCommand.Fio.Columns
import GoodCommand.Fio.Measured
import GoodCommand.Fio.ParaseFio
import GoodCommand.Fio.Values
import GoodCommand.FrequencySort.Defs
import GoodCommand.FrequencySort.FrequencySort
import GoodCommand.Fs.Access
import GoodCommand.Fs.Defs
import GoodCommand.Fs.FileCount
import GoodCommand.Fs.InodeHash
import GoodCommand.Fs.Pending
import GoodCommand.Fs.Size
import GoodCommand.HashList.Contents
import GoodCommand.HashList.Defs
import GoodCommand.HashList.Runs
import GoodCommand.HashList.Traversal
import GoodCommand.HashList.Wired
import GoodCommand.KernelList.Contents
import GoodCommand.KernelList.Defs
import GoodCommand.KernelList.Entries
import GoodCommand.KernelList.Lists
import GoodCommand.KernelList.Pinned
import GoodCommand.KernelList.Runs
import GoodCommand.KernelList.SameHeap
import GoodCommand.KernelList.Traversal
import GoodCommand.KernelList.Wired
import GoodCommand.Library.Arr
import GoodCommand.Library.Blocks
import GoodCommand.Library.CInt
import GoodCommand.Library.CString
import GoodCommand.Library.Chain
import GoodCommand.Library.CharString
import GoodCommand.Library.Dict
import GoodCommand.Library.Distinct
import GoodCommand.Library.Except
import GoodCommand.Library.Fuel
import GoodCommand.Library.LinkedRing
import GoodCommand.Library.Median
import GoodCommand.Library.Mirrored
import GoodCommand.Library.Pairs
import GoodCommand.Library.Qsort
import GoodCommand.Library.RingLists
import GoodCommand.Library.Rings
import GoodCommand.Library.Seqcount
import GoodCommand.Library.Shunting
import GoodCommand.Library.Steady
import GoodCommand.Library.Tally
import GoodCommand.Library.Words
import GoodCommand.LinuxList.Defs
import GoodCommand.LinuxList.ListAdd
import GoodCommand.ListNode.Defs
import GoodCommand.ListNode.DoRevert
import GoodCommand.ListNode.ReverseKGroup
import GoodCommand.LongestSubstring.Defs
import GoodCommand.LongestSubstring.LengthOfLongestSubstring
import GoodCommand.Median.Defs
import GoodCommand.Median.FindMedian
import GoodCommand.Palindrome.Defs
import GoodCommand.Palindrome.LongestPalindrome
import GoodCommand.Palindrome.Scan
import GoodCommand.Palindrome.Verbatim
import GoodCommand.ReverseWords.Defs
import GoodCommand.ReverseWords.ReverseWords
import GoodCommand.Scanners.Defs
import GoodCommand.Scanners.Numerals
import GoodCommand.Scanners.TokenLines
import GoodCommand.SmallestPairs.Defs
import GoodCommand.SmallestPairs.KSmallestPairs
import GoodCommand.SumK.CountPairs
import GoodCommand.SumK.Defs
import GoodCommand.SumK.FarApart
