/-!
# Outcomes

What an operation can answer besides its result: a `Status`, which the caller is expected to
handle, or a `Breach`, which says that a call or an internal structure broke its contract.
-/

namespace SimplexBasis

/-- Outcome of a factorization, solve or update that did not complete. -/
inductive Status where
  /-- Some columns got no pivot; the partial result names the rows left over. -/
  | singular
  /-- The arrays describe no basis matrix. -/
  | invalidBasis (detail : String)
  /-- There is no valid factorization to work on. -/
  | invalidCall
  /-- More column replacements are stored than the update region may hold. -/
  | updateOverflow
  /-- The active submatrix has entries, but none passes the pivot tolerances. -/
  | nearSingular
  /-- A working area is too small even after compression. -/
  | outOfMemory
  /-- The entry of the entering column at the leaving position is too small. -/
  | singularUpdate
  /-- No further column replacement can be stored. -/
  | updateRegionFull
  deriving DecidableEq, Repr

namespace Status

/-- Numeric code of the external interface; zero is success. -/
def code : Status → Int
  | singular => -1
  | invalidBasis _ => -2
  | invalidCall => -3
  | updateOverflow => -4
  | nearSingular => -97
  | outOfMemory => -99
  | singularUpdate => 2
  | updateRegionFull => 3

def message : Status → String
  | singular => "basis matrix is singular"
  | invalidBasis detail => "invalid basis matrix: " ++ detail
  | invalidCall => "no valid factorization available"
  | updateOverflow => "update region overflow"
  | nearSingular => "pivot below tolerance"
  | outOfMemory => "insufficient working memory"
  | singularUpdate => "column replacement would make the basis singular"
  | updateRegionFull => "update region is full"

/-- Whether the caller should start again from a fresh basis. -/
def requiresRefactor : Status → Bool
  | singularUpdate | updateRegionFull | updateOverflow => true
  | _ => false

end Status

/-- Code of a result: zero when it is a value, the code of its status otherwise. -/
def statusCode {β : Type} : Except Status β → Int
  | .ok _ => 0
  | .error s => s.code

/-- A broken contract. Nothing is promised about the state in which it is found. -/
inductive Breach where
  | indexOutOfRange
  | lengthMismatch
  /-- An operation on unpacked vectors was called on a packed one. -/
  | packedVector
  /-- A row to be inserted is already stored. -/
  | alreadyStored
  /-- A working area larger than the address space. -/
  | capacityOverflow
  | invalidAreaFactor
  /-- The files and lists of the active submatrix do not agree. -/
  | inconsistent
  /-- A loop ran longer than its input allows. -/
  | unbounded
  deriving DecidableEq, Repr

/-- The reason why an operation stopped without a result. -/
inductive Stop where
  | status (s : Status)
  | breach (b : Breach)
  deriving DecidableEq, Repr

end SimplexBasis
