import Mathlib.Data.List.Basic

/-!
# Error values

`concept.Error` and the ways Go wraps it. `unwrapChain` follows single wraps to
the root, `fromError` accepts a root that is a `concept.Error`, and `errorsIs` is
the standard library's walk, which also asks a `concept.Error` on the way for its
own `Is`. Two errors made by `errors.New` are identified by their text.
-/

namespace Cassem.Concept

inductive Code where
  | ok
  | cancelled
  | unknown
  | invalidArgument
  | deadlineExceeded
  | notFound
  | alreadyExists
  | permissionDenied
  | resourceExhausted
  | failedPrecondition
  | aborted
  | outOfRange
  | unimplemented
  | internal
  | unavailable
  | dataLoss
  | unauthenticated
  deriving DecidableEq, Repr

structure Error where
  code : Code
  message : String
  deriving DecidableEq, Repr

def Err_INVALID_ARGUMENT : Error := ⟨.invalidArgument, "INVALID_ARGUMENT"⟩
def Err_NOT_FOUND : Error := ⟨.notFound, "NOT_FOUND"⟩
def Err_ALREADY_EXISTS : Error := ⟨.alreadyExists, "ALREADY_EXISTS"⟩
def Err_PERMISSION_DENIED : Error := ⟨.permissionDenied, "PERMISSION_DENIED"⟩
def Err_INTERNAL : Error := ⟨.internal, "INTERNAL"⟩
def Err_UNAUTHENTICATED : Error := ⟨.unauthenticated, "UNAUTHENTICATED"⟩

end Cassem.Concept

namespace Cassem

open Cassem.Concept (Error)

/-- A Go error: `errors.New`, a `*concept.Error`, `fmt.Errorf` with one `%w`
(carrying the formatted text), or `errors.Join`. -/
inductive GoError where
  | text (msg : String)
  | concept (e : Error)
  | wrap (msg : String) (inner : GoError)
  | join (errs : List GoError)
  deriving Repr

namespace GoError

mutual

def message : GoError → String
  | text m => m
  | concept e => e.message
  | wrap m _ => m
  | join es => "\n".intercalate (messages es)

def messages : List GoError → List String
  | [] => []
  | e :: es => e.message :: messages es

end

/-- `fmt.Errorf(prefix + "%w", inner)`. -/
def errorf (text : String) (inner : GoError) : GoError := wrap (text ++ inner.message) inner

def unwrapChain : GoError → GoError
  | wrap _ inner => unwrapChain inner
  | e => e

def fromError (err : GoError) : Option Error :=
  match unwrapChain err with
  | concept e => some e
  | _ => none

end GoError

/-- The `Is` method of `concept.Error`. -/
def Concept.Error.is (e : Error) (target : GoError) : Bool :=
  match target.fromError with
  | none => false
  | some t => e.code = t.code && e.message = t.message

namespace GoError

mutual

/-- `err == target` on the values a program can hold. -/
def same : GoError → GoError → Bool
  | text m, text m' => m = m'
  | concept e, concept e' => e = e'
  | wrap m e, wrap m' e' => m = m' && e.same e'
  | join es, join es' => sames es es'
  | _, _ => false

def sames : List GoError → List GoError → Bool
  | [], [] => true
  | e :: es, e' :: es' => e.same e' && sames es es'
  | _, _ => false

end

mutual

/-- `errors.Is(err, target)`. -/
def errorsIs : GoError → GoError → Bool
  | text m, target => (text m).same target
  | concept e, target => (concept e).same target || e.is target
  | wrap m inner, target => (wrap m inner).same target || errorsIs inner target
  | join es, target => (join es).same target || anyIs es target

def anyIs : List GoError → GoError → Bool
  | [], _ => false
  | e :: es, target => errorsIs e target || anyIs es target

end

end GoError

end Cassem
