import Cassem.Agent.GetElement

/-!
# Error codes on their way out

A server turns an error into a gRPC status, and the agent into an HTTP status as well, by the
sentinel at the end of its wraps. Readers join the sentinel of a key with a text, and what is
joined is no wrap.
-/

namespace Cassem

namespace Concept

def Err_CANCELLED : Error := ⟨.cancelled, "CANCELLED"⟩
def Err_UNKNOWN : Error := ⟨.unknown, "UNKNOWN"⟩
def Err_DEADLINE_EXCEEDED : Error := ⟨.deadlineExceeded, "DEADLINE_EXCEEDED"⟩
def Err_RESOURCE_EXHAUSTED : Error := ⟨.resourceExhausted, "RESOURCE_EXHAUSTED"⟩
def Err_FAILED_PRECONDITION : Error := ⟨.failedPrecondition, "FAILED_PRECONDITION"⟩
def Err_ABORTED : Error := ⟨.aborted, "ABORTED"⟩
def Err_OUT_OF_RANGE : Error := ⟨.outOfRange, "OUT_OF_RANGE"⟩
def Err_UNIMPLEMENTED : Error := ⟨.unimplemented, "UNIMPLEMENTED"⟩
def Err_UNAVAILABLE : Error := ⟨.unavailable, "UNAVAILABLE"⟩
def Err_DATA_LOSS : Error := ⟨.dataLoss, "DATA_LOSS"⟩

def sentinels : List Error :=
  [Err_CANCELLED, Err_UNKNOWN, Err_INVALID_ARGUMENT, Err_DEADLINE_EXCEEDED, Err_NOT_FOUND,
    Err_ALREADY_EXISTS, Err_PERMISSION_DENIED, Err_RESOURCE_EXHAUSTED, Err_FAILED_PRECONDITION,
    Err_ABORTED, Err_OUT_OF_RANGE, Err_UNIMPLEMENTED, Err_INTERNAL, Err_UNAVAILABLE,
    Err_DATA_LOSS, Err_UNAUTHENTICATED]

/-- A gRPC status. -/
structure Status where
  code : Code
  message : String
  deriving DecidableEq, Repr

/-- `ToStatus` of an error; a status with the code OK is no error. -/
def ToStatus (err : GoError) : Option Status :=
  let s : Status :=
    match err.fromError with
    | none => ⟨.unknown, err.message⟩
    | some x => ⟨x.code, x.message⟩
  if s.code = .ok then none else some s

/-- `FromStatus` of a status that arrives. -/
def FromStatus (s : Status) : Error := ⟨s.code, s.message⟩

end Concept

open Cassem.Concept

/-! ## Wraps -/

namespace GoError

/-- The error is `e` in wraps, one in another. -/
inductive Chained (e : Error) : GoError → Prop
  | root : Chained e (.concept e)
  | wrap {msg : String} {inner : GoError} (h : Chained e inner) : Chained e (.wrap msg inner)

variable {err : GoError} {e : Error}

theorem chained_of_fromError : ∀ {err : GoError}, err.fromError = some e → Chained e err
  | .concept _, h => by
    cases h
    exact .root
  | .wrap _ _, h => .wrap (chained_of_fromError h)

theorem chained_iff : Chained e err ↔ err.fromError = some e := by
  constructor
  · intro h
    induction h with
    | root => rfl
    | wrap h ih => exact ih
  · exact chained_of_fromError

/-- In wraps there is one sentinel. -/
theorem Chained.errorsIs_iff (h : Chained e err) (s : Error) :
    err.errorsIs (.concept s) = true ↔ s = e := by
  induction h with
  | root =>
    have hsame : (concept e).same (.concept s) = true ↔ e = s := decide_eq_true_iff
    have his : e.is (.concept s) = true ↔ e.code = s.code ∧ e.message = s.message := by
      simp [Error.is, fromError, unwrapChain]
    rw [errorsIs, Bool.or_eq_true, hsame, his]
    constructor
    · rintro (rfl | ⟨hcode, hmessage⟩)
      · rfl
      · cases s
        cases e
        simp_all
    · rintro rfl
      exact .inl rfl
  | wrap h ih =>
    have hsame : ∀ msg inner, (GoError.wrap msg inner).same (.concept s) = false := fun _ _ => rfl
    rw [errorsIs, hsame, Bool.false_or]
    exact ih

theorem anyIs_of_mem {errs : List GoError} {target : GoError} (hmem : err ∈ errs)
    (h : err.errorsIs target = true) : anyIs errs target = true := by
  induction errs with
  | nil => cases hmem
  | cons e errs ih =>
    rw [anyIs]
    rcases List.mem_cons.mp hmem with rfl | hmem
    · rw [h, Bool.true_or]
    · rw [ih hmem, Bool.or_true]

/-- An error that does not come down to a sentinel by its wraps has the code UNKNOWN. -/
theorem ToStatus_of_fromError_none (h : err.fromError = none) :
    ToStatus err = some ⟨.unknown, err.message⟩ := by
  rw [ToStatus, h]
  rfl

theorem Chained.ToStatus_eq (h : Chained e err) (hok : e.code ≠ .ok) :
    ToStatus err = some ⟨e.code, e.message⟩ := by
  rw [ToStatus, chained_iff.mp h]
  exact if_neg hok

/-- The client is given the sentinel again. -/
theorem Chained.FromStatus_eq (h : Chained e err) (hok : e.code ≠ .ok) :
    (ToStatus err).map FromStatus = some e := by
  rw [h.ToStatus_eq hok]
  rfl

end GoError

/-! ## Errors of keys -/

namespace Coord

/-- `pb.KeyError`. -/
structure KeyError where
  Key : String
  Code : String
  Message : String

def keyErrorCodeSentinel : String → Option Error
  | "Canceled" => some Err_CANCELLED
  | "Unknown" => some Err_UNKNOWN
  | "InvalidArgument" => some Err_INVALID_ARGUMENT
  | "DeadlineExceeded" => some Err_DEADLINE_EXCEEDED
  | "NotFound" => some Err_NOT_FOUND
  | "AlreadyExists" => some Err_ALREADY_EXISTS
  | "PermissionDenied" => some Err_PERMISSION_DENIED
  | "ResourceExhausted" => some Err_RESOURCE_EXHAUSTED
  | "FailedPrecondition" => some Err_FAILED_PRECONDITION
  | "Aborted" => some Err_ABORTED
  | "OutOfRange" => some Err_OUT_OF_RANGE
  | "Unimplemented" => some Err_UNIMPLEMENTED
  | "Internal" => some Err_INTERNAL
  | "Unavailable" => some Err_UNAVAILABLE
  | "DataLoss" => some Err_DATA_LOSS
  | "Unauthenticated" => some Err_UNAUTHENTICATED
  | _ => none

def keyErrorToError (item : KeyError) : GoError :=
  let msg : GoError := .text ("key " ++ item.Key ++ ": " ++ item.Code ++ ": " ++ item.Message)
  match keyErrorCodeSentinel item.Code with
  | none => msg
  | some sentinel => .join [msg, .concept sentinel]

/-- The errors of a response, as the readers join them. -/
def getKVsErrorsOf (errors : List KeyError) (ignoreNotFound : Bool) : Option GoError :=
  let errs := (errors.filter fun item => !(ignoreNotFound && item.Code = "NotFound")).map
    keyErrorToError
  if errs = [] then none else some (.join errs)

/-- The readers of elements meet no other error than that a key is not there. -/
theorem getKVsErrors_eq (missing : List String) (ignoreNotFound : Bool) :
    getKVsErrors missing ignoreNotFound =
      getKVsErrorsOf (missing.map fun key => ⟨key, "NotFound", "NOT_FOUND"⟩) ignoreNotFound := by
  have hitem : ∀ key, keyErrorToError ⟨key, "NotFound", "NOT_FOUND"⟩ =
      .join [.text ("key " ++ key ++ ": NotFound: NOT_FOUND"), .concept Err_NOT_FOUND] := by
    intro key
    have htext : "key " ++ key ++ ": " ++ "NotFound" ++ ": " ++ "NOT_FOUND" =
        "key " ++ key ++ ": NotFound: NOT_FOUND" := by simp only [String.append_assoc]; rfl
    rw [keyErrorToError, htext]
    rfl
  unfold getKVsErrors getKVsErrorsOf
  cases ignoreNotFound with
  | true => simp
  | false => simp [Function.comp_def, hitem]

/-- What is joined is found by its sentinel, and has the code UNKNOWN. -/
theorem ToStatus_getKVsErrorsOf {errors : List KeyError} {ignoreNotFound : Bool} {err : GoError}
    (h : getKVsErrorsOf errors ignoreNotFound = some err) :
    (∀ item ∈ errors, (ignoreNotFound && item.Code = "NotFound") = false →
      ∀ s, keyErrorCodeSentinel item.Code = some s → err.errorsIs (.concept s) = true) ∧
    ToStatus err = some ⟨.unknown, err.message⟩ := by
  unfold getKVsErrorsOf at h
  dsimp only at h
  split at h
  · cases h
  · cases h
    refine ⟨fun item hitem hkept s hs => ?_, GoError.ToStatus_of_fromError_none rfl⟩
    have hmem : keyErrorToError item ∈ (errors.filter fun item =>
        !(ignoreNotFound && item.Code = "NotFound")).map keyErrorToError :=
      List.mem_map_of_mem (List.mem_filter.mpr ⟨hitem, by rw [hkept]; rfl⟩)
    have hfound : (keyErrorToError item).errorsIs (.concept s) = true := by
      rw [keyErrorToError, hs]
      simp [GoError.errorsIs, GoError.anyIs, GoError.same]
    rw [GoError.errorsIs, GoError.anyIs_of_mem hmem hfound, Bool.or_true]

end Coord

/-! ## Which codes survive -/

namespace Agent

/-- The HTTP status of a code. -/
def httpStatus : Code → Nat
  | .unauthenticated => 401
  | .permissionDenied => 403
  | .invalidArgument | .outOfRange | .failedPrecondition => 400
  | .notFound => 404
  | .alreadyExists | .aborted => 409
  | .resourceExhausted => 429
  | .unavailable => 503
  | .deadlineExceeded => 504
  | .cancelled => 408
  | _ => 500

theorem agentHTTPStatus_of_fromError {err : GoError} {e : Error} (h : err.fromError = some e) :
    agentHTTPStatus err = httpStatus e.code := by
  rw [agentHTTPStatus, h]
  rfl

theorem agentHTTPStatus_of_fromError_none {err : GoError} (h : err.fromError = none) :
    agentHTTPStatus err =
      if err.errorsIs errDeadlineExceeded = true then 504
      else if err.errorsIs errCanceled = true then 408 else 500 := by
  rw [agentHTTPStatus, h]
  cases err.errorsIs errDeadlineExceeded <;> cases err.errorsIs errCanceled <;> rfl

/-- The code of the one sentinel in an error is the code of its status, and of its HTTP status,
exactly if only wraps are around the sentinel, or if it is the one for what is unknown and no error
of a context is joined with it. -/
theorem code_survives_iff {err : GoError} {s : Error} (hs : s ∈ sentinels)
    (hone : ∀ s' ∈ sentinels, err.errorsIs (.concept s') = true ↔ s' = s) :
    ((ToStatus err).map (·.code) = some s.code ∧ agentHTTPStatus err = httpStatus s.code) ↔
      GoError.Chained s err ∨ (s = Err_UNKNOWN ∧ err.errorsIs errDeadlineExceeded = false ∧
        err.errorsIs errCanceled = false) := by
  have hok : s.code ≠ .ok := by
    have hall : ∀ s ∈ sentinels, s.code ≠ .ok := by decide
    exact hall s hs
  cases hroot : err.fromError with
  | some e =>
    have hchain := GoError.chained_iff.mpr hroot
    have he : s = e := (hchain.errorsIs_iff s).mp ((hone s hs).mpr rfl)
    subst he
    refine iff_of_true ⟨?_, agentHTTPStatus_of_fromError hroot⟩ (.inl hchain)
    rw [hchain.ToStatus_eq hok]
    rfl
  | none =>
    have hnot : ¬ GoError.Chained s err := by
      rw [GoError.chained_iff, hroot]
      nofun
    rw [GoError.ToStatus_of_fromError_none hroot, agentHTTPStatus_of_fromError_none hroot,
      Option.map_some, or_iff_right hnot]
    have hunknown : ∀ s ∈ sentinels, Code.unknown = s.code ↔ s = Err_UNKNOWN := by decide
    rw [Option.some_inj, hunknown s hs]
    refine and_congr_right fun hs' => ?_
    have hstatus : httpStatus s.code = 500 := by rw [hs']; rfl
    rw [hstatus]
    cases err.errorsIs errDeadlineExceeded <;> cases err.errorsIs errCanceled <;> simp

/-- The error of a reader that finds no version under the keys. -/
def versionNotFound : GoError :=
  .errorf "kvReadOnly.getElementsByKeys.version: " (.join [.join
    [.text "key cassem/elements/shop/prod/color/v1: NotFound: NOT_FOUND", .concept Err_NOT_FOUND]])

theorem code_survives_wrapped :
    ((ToStatus (.errorf "kvWrite.saveRaw: " (.concept Err_ALREADY_EXISTS))).map (·.code) =
        some Code.alreadyExists ∧
      agentHTTPStatus (.errorf "kvWrite.saveRaw: " (.concept Err_ALREADY_EXISTS)) =
        httpStatus .alreadyExists) ↔
      GoError.Chained Err_ALREADY_EXISTS
          (.errorf "kvWrite.saveRaw: " (.concept Err_ALREADY_EXISTS)) ∨
        (Err_ALREADY_EXISTS = Err_UNKNOWN ∧
          (GoError.errorf "kvWrite.saveRaw: " (.concept Err_ALREADY_EXISTS)).errorsIs
            errDeadlineExceeded = false ∧
          (GoError.errorf "kvWrite.saveRaw: " (.concept Err_ALREADY_EXISTS)).errorsIs
            errCanceled = false) :=
  code_survives_iff (s := Err_ALREADY_EXISTS) (by decide) (by decide)

/-- It is not found, but its status is another. -/
theorem joined_code_lost :
    (∀ s ∈ sentinels, versionNotFound.errorsIs (.concept s) = true ↔ s = Err_NOT_FOUND) ∧
      (ToStatus versionNotFound).map (·.code) = some Code.unknown ∧
      agentHTTPStatus versionNotFound = 500 ∧ httpStatus Err_NOT_FOUND.code = 404 := by
  decide

end Agent

end Cassem
