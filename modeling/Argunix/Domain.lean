import Mathlib.Tactic.Common

/-!
# `argunix-domain`: identifiers, statuses, derivations

The vocabulary every other crate shares. Identifiers are newtypes over an integer row id
(distinct types, so that a job id is never passed for an evaluation id); the two status
enumerations carry the classification the rest of the daemon branches on.

`JobStatus.interrupted` is the status to watch: it is **not** terminal, although it is a
legitimate result of a build that never found a builder.
-/

set_option autoImplicit false

namespace Argunix

/-- `id_newtype!(RepoId)` -/
structure RepoId where
  get : Int
deriving DecidableEq, Repr

/-- `id_newtype!(EvalId)` -/
structure EvalId where
  get : Int
deriving DecidableEq, Repr

/-- `id_newtype!(JobId)` -/
structure JobId where
  get : Int
deriving DecidableEq, Repr

/-- `JobStatus` -/
inductive JobStatus
  | queued
  | running
  | cached
  | success
  | failure
  | cancelled
  | interrupted
  | skippedNoBuilder
deriving DecidableEq, Repr

namespace JobStatus

/-- `is_terminal` -/
def isTerminal : JobStatus → Bool
  | cached | success | failure | cancelled | skippedNoBuilder => true
  | queued | running | interrupted => false

/-- `is_success` -/
def isSuccess : JobStatus → Bool
  | cached | success => true
  | _ => false

end JobStatus

/-- `EvalStatus` -/
inductive EvalStatus
  | queued
  | evaluating
  | evaluationFailed
  | building
  | done
  | cancelled
deriving DecidableEq, Repr

namespace EvalStatus

/-- `is_terminal` -/
def isTerminal : EvalStatus → Bool
  | evaluationFailed | done | cancelled => true
  | queued | evaluating | building => false

end EvalStatus

/-- `meta.image-format` -/
inductive ImageFormat
  | docker
  | oci
deriving DecidableEq, Repr

/-- One derivation of a Job's closure, as the scheduler consumes it. -/
structure DerivationInfo where
  drvPath : String
  system : Option String
  requiredFeatures : List String
  inputDrvs : List String
deriving DecidableEq, Repr

end Argunix
