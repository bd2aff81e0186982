import SimplexBasis.Options
import SimplexBasis.Action
import SimplexBasis.Journal
import SimplexBasis.Word
import SimplexBasis.Sorting.Introsort
import SimplexBasis.SparseVector
import SimplexBasis.BasisMatrix
import SimplexBasis.Storage.CountLists
import SimplexBasis.Storage.LineFile
import SimplexBasis.Dense.Kernel
import SimplexBasis.PivotRange
import SimplexBasis.Dense.Factorization
import SimplexBasis.Sparse.Active
import SimplexBasis.Sparse.Factors
import SimplexBasis.Sparse.Singletons
import SimplexBasis.Sparse.Elimination
import SimplexBasis.Sparse.PivotSearch
import SimplexBasis.Sparse.DenseBlock
import SimplexBasis.Sparse.Factorizing
import SimplexBasis.Sparse.Loading
import SimplexBasis.Sparse.Positions
import SimplexBasis.Sparse.Replacement
import SimplexBasis.Sparse.Solving
import SimplexBasis.Engine
import SimplexBasis.Recovery
import SimplexBasis.Proofs.Repair
import SimplexBasis.Proofs.Sparse.Reached
import SimplexBasis.Proofs.Protocol
import SimplexBasis.Proofs.Solutions
import SimplexBasis.Proofs.Validation
import SimplexBasis.Proofs.Vectors.Operations
import SimplexBasis.Proofs.Replacements
import SimplexBasis.Proofs.Independence
import SimplexBasis.Proofs.Places
import SimplexBasis.Proofs.Completion
import SimplexBasis.Proofs.UpdateRegion
import SimplexBasis.Proofs.AreaSizes
import SimplexBasis.Proofs.Dense.Decomposition
import SimplexBasis.Proofs.Sparse.Cheapest
import SimplexBasis.Proofs.Sparse.SchurComplement
import SimplexBasis.Proofs.Sparse.Exhaustion
import SimplexBasis.Proofs.Storage.LineEdits
import SimplexBasis.Proofs.Sparse.SingletonPhase
import SimplexBasis.Proofs.Sparse.TriangularBases
import SimplexBasis.Proofs.Stability
import SimplexBasis.Proofs.Sparse.Staging
import SimplexBasis.Proofs.Sparse.LoadedLines
import SimplexBasis.Proofs.Storage.CountEdits
import SimplexBasis.Proofs.Vectors.Rows
import SimplexBasis.Proofs.Vectors.Accumulation
import SimplexBasis.Proofs.Products
import SimplexBasis.Proofs.StableTransposition
import SimplexBasis.Proofs.Triangular.Search
