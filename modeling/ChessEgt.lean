import ChessEgt.Library.Outcome
import ChessEgt.Library.Consistency
import ChessEgt.Library.Game
import ChessEgt.Library.Propagation
import ChessEgt.Library.Iteration
import ChessEgt.Chess.Board
import ChessEgt.Chess.Rules
import ChessEgt.Chess.Symmetry
import ChessEgt.Chess.Moves
import ChessEgt.Dtc
import ChessEgt.Error
import ChessEgt.PieceSet
import ChessEgt.Library.Compaction
import ChessEgt.Library.Combinadics
import ChessEgt.Library.IndexTable
import ChessEgt.Position
import ChessEgt.TableId
import ChessEgt.Indexer
import ChessEgt.Egt
import ChessEgt.Chess.Concrete
import ChessEgt.Layout
import ChessEgt.Indexing.RoundTrip
import ChessEgt.Routing.Quiet
import ChessEgt.Routing.Parsing
import ChessEgt.Retrograde.Predecessors
import ChessEgt.Stats.Validity
import ChessEgt.Storage.RoundTrip
import ChessEgt.Cache.Equivalence
import ChessEgt.Storage.Transpose
import ChessEgt.Indexing.InPlace
import ChessEgt.Indexing.Ranking
import ChessEgt.Indexing.PawnSlices
import ChessEgt.Routing.Selectors
import ChessEgt.Retrograde.Initialize
import ChessEgt.Retrograde.Solve
import ChessEgt.Library.Confluence
import ChessEgt.Retrograde.Interleaving
import ChessEgt.Retrograde.Advances
import ChessEgt.Retrograde.Counting
import ChessEgt.Retrograde.Runs
import ChessEgt.Indexing.Views
import ChessEgt.Retrograde.Emissions
import ChessEgt.Retrograde.Pair
import ChessEgt.Retrograde.Cells
import ChessEgt.Retrograde.InitialCells
import ChessEgt.Retrograde.Counters
import ChessEgt.Retrograde.Reflections
