import OsdevLibstdc.ByteStores
import OsdevLibstdc.Target
import OsdevLibstdc.FormatParser
import OsdevLibstdc.FormatOutput
import OsdevLibstdc.VsnprintfLoop
import OsdevLibstdc.FormatFields
import OsdevLibstdc.FormatTotals
import OsdevLibstdc.LoopSimulation
import OsdevLibstdc.FormatCursor
import OsdevLibstdc.LoopRuns
import OsdevLibstdc.FieldRooms
import OsdevLibstdc.BoundedOutput
import OsdevLibstdc.CleanOutput
import OsdevLibstdc.ReturnedTotal
import OsdevLibstdc.FieldLayout
import OsdevLibstdc.EntireOutput
import OsdevLibstdc.TruncatedOutput
import OsdevLibstdc.FormatOverread
import OsdevLibstdc.VariadicArguments
import OsdevLibstdc.FormatGrammar
import OsdevLibstdc.DirectiveParsing
import OsdevLibstdc.ArgumentSync
import OsdevLibstdc.TransitionSystems
import OsdevLibstdc.SpinLock
import OsdevLibstdc.MutexTraces
import OsdevLibstdc.LockTraces
import OsdevLibstdc.LockContention
import OsdevLibstdc.GuardedCounter
import OsdevLibstdc.InterruptGuard
import OsdevLibstdc.AllocatorLock
import OsdevLibstdc.KernelCalls
import OsdevLibstdc.KernelProgress
import OsdevLibstdc.ByteMemory
import OsdevLibstdc.StoreLogs
import OsdevLibstdc.MemoryCopies
import OsdevLibstdc.StringScans
import OsdevLibstdc.TokenSpans
import OsdevLibstdc.StringTokens
import OsdevLibstdc.TokenRuns
import OsdevLibstdc.TokenExhaustion
import OsdevLibstdc.BoundedStrings
import OsdevLibstdc.Numerals
import OsdevLibstdc.NumberTexts
import OsdevLibstdc.PrintedFields
import OsdevLibstdc.MatchedArguments
import OsdevLibstdc.ConcatenatedOutput
import OsdevLibstdc.IntegerFields
import OsdevLibstdc.ScratchBuffers
import OsdevLibstdc.IntegerRendering
import OsdevLibstdc.AlternativeForm
import OsdevLibstdc.ZeroFlag
import OsdevLibstdc.StarArguments
import OsdevLibstdc.LengthModifiers
import OsdevLibstdc.FirstDifferences
import OsdevLibstdc.CharacterCase
import OsdevLibstdc.StringComparison
import OsdevLibstdc.StringOrder
import OsdevLibstdc.CaseFolding
import OsdevLibstdc.StringCopies
import OsdevLibstdc.OverlappingCopies
import OsdevLibstdc.StringFields
import OsdevLibstdc.SprintfCalls
import OsdevLibstdc.WrittenCounts
import OsdevLibstdc.CheckedOutcomes
import OsdevLibstdc.ParsingOverflow
import OsdevLibstdc.ArgumentOverflow
import OsdevLibstdc.OutputOverflow
import OsdevLibstdc.OverflowRuns
import OsdevLibstdc.SignedOverflow
import OsdevLibstdc.FueledLoops
import OsdevLibstdc.StringReversal
import OsdevLibstdc.TextPositions
import OsdevLibstdc.BlockSearch
import OsdevLibstdc.CharacterSearch
import OsdevLibstdc.StringSearch
import OsdevLibstdc.BoundedScans
import OsdevLibstdc.BoundedAppends
import OsdevLibstdc.StringDuplicates
import OsdevLibstdc.NestedEvents
import OsdevLibstdc.FlagRestoration
import OsdevLibstdc.LowestBits
import OsdevLibstdc.FirstSetBit
import OsdevLibstdc.PrintfMemory
import OsdevLibstdc.PrintedStrings
import OsdevLibstdc.JoinedTokens
import OsdevLibstdc.NumeralOrder
import OsdevLibstdc.PrintedNumbers
import OsdevLibstdc.ParsedDirectives
import OsdevLibstdc.AcceptedFormats
import OsdevLibstdc.PrintableOutput
import OsdevLibstdc.OverlappingStrings
import OsdevLibstdc.ViewMemory
import OsdevLibstdc.GuardedData
import OsdevLibstdc.GuardedOrders
import OsdevLibstdc.GeneratedFormats
