import CodingChallenges.CText
import CodingChallenges.CMemory
import CodingChallenges.Runs
import CodingChallenges.ChainedTable
import CodingChallenges.RedisDb
import CodingChallenges.RedisMap
import CodingChallenges.RedisExpiry
import CodingChallenges.PointerTable
import CodingChallenges.RedisHeap
import CodingChallenges.RedisClients
import CodingChallenges.RedisResp
import CodingChallenges.RedisParser
import CodingChallenges.RedisServer
import CodingChallenges.RedisCommands
import CodingChallenges.RedisReplies
import CodingChallenges.RedisSession
import CodingChallenges.RedisFraming
import CodingChallenges.BitcaskFile
import CodingChallenges.BitcaskHelper
import CodingChallenges.BitcaskInterference
import CodingChallenges.BitcaskLog
import CodingChallenges.Calculator
import CodingChallenges.CalculatorGrammar
import CodingChallenges.CommonSubsequence
import CodingChallenges.CyclicScan
import CodingChallenges.DescriptorTable
import CodingChallenges.DiffTool
import CodingChallenges.Interleaving
import CodingChallenges.LoadBalancer
import CodingChallenges.ShellEditor
import CodingChallenges.ShellPipes
import CodingChallenges.BitcaskChecksum
import CodingChallenges.NumberText
import CodingChallenges.RedisAllocation
import CodingChallenges.RedisCounter
import CodingChallenges.RedisDeletion
import CodingChallenges.RedisRoundTrip
import CodingChallenges.RedisSetOptions
import CodingChallenges.CalculatorLexemes
import CodingChallenges.CalculatorBuffer
import CodingChallenges.CalculatorSession
import CodingChallenges.CalculatorTermination
import CodingChallenges.EditorBounds
import CodingChallenges.LoadForwarding
import CodingChallenges.Pieces
import CodingChallenges.ShellDirectory
import CodingChallenges.ShellHistory
import CodingChallenges.LoadHealth
import CodingChallenges.AdjacentRuns
import CodingChallenges.BitcaskAllocation
import CodingChallenges.CutTool
import CodingChallenges.GrepTool
import CodingChallenges.LoadRelay
import CodingChallenges.UniqTool
import CodingChallenges.WordCount
import CodingChallenges.BitcaskSessions
import CodingChallenges.Footprint
import CodingChallenges.LockedCalls
import CodingChallenges.RedisStore
import CodingChallenges.RedisThreads
import CodingChallenges.BitcaskHeap
import CodingChallenges.FieldScan
import CodingChallenges.LoadSystem
import CodingChallenges.ShellSession
import CodingChallenges.WebServer
import CodingChallenges.CounterThreads
import CodingChallenges.GrepMain
import CodingChallenges.LsTool
import CodingChallenges.UniqLaws
import CodingChallenges.LoadConfig
import CodingChallenges.RedisMemory
import CodingChallenges.BitcaskStore
import CodingChallenges.WcScript
import CodingChallenges.ShellScreen
