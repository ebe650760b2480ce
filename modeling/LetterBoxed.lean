import LetterBoxed.DfsRefinement
import LetterBoxed.Solver
import LetterBoxed.Lib.Paths
import LetterBoxed.Lib.Bits
import LetterBoxed.StateCache
import LetterBoxed.Chains
import LetterBoxed.Iteration
import LetterBoxed.CachedIteration
import LetterBoxed.CacheExactness
import LetterBoxed.Deepening
import LetterBoxed.Box
import LetterBoxed.Lib.Grouping
import LetterBoxed.GraphBuild
import LetterBoxed.WordChains
import LetterBoxed.Solutions
import LetterBoxed.PlainSearch
import LetterBoxed.SearchResults
import LetterBoxed.Split
import LetterBoxed.Fields
import LetterBoxed.Filter
import LetterBoxed.FilterFaults
import LetterBoxed.Pipeline
import LetterBoxed.ReadSides
import LetterBoxed.Padding
import LetterBoxed.GptRunner
import LetterBoxed.GptTables
import LetterBoxed.Lib.BoundedSearch
import LetterBoxed.Lib.BreadthFirst
import LetterBoxed.Levels
import LetterBoxed.CacheOrder
import LetterBoxed.BreadthFirst
import LetterBoxed.SearchOrder
import LetterBoxed.Lib.PathOrder
import LetterBoxed.ChainOrder
import LetterBoxed.SearchWork
import LetterBoxed.Agreement
import LetterBoxed.Lib.Tokens
import LetterBoxed.GptWords
import LetterBoxed.GptSolutions
import LetterBoxed.Lib.PrefixCode
import LetterBoxed.Runner
import LetterBoxed.AcceptedLetters
import LetterBoxed.GptAccepted
import LetterBoxed.Bench
import LetterBoxed.PercentileReporter
import LetterBoxed.Lib.Bisimulation
import LetterBoxed.Rearranged
