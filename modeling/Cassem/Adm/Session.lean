import Cassem.Adm.Route
import Cassem.KV.Entity
import Cassem.Lib.Base64
import Cassem.Lib.Decimal
import Mathlib.Data.Option.Basic

/-!
# Session headers

The header that a login hands out and every later request carries: the session as JSON and its
HMAC under the secret, both in base64. The JSON codec and the HMAC are parameters.
-/

namespace Cassem.Adm

open Lib Cassem.Concept
open KV (Bytes)

/-- `json.Marshal` and `json.Unmarshal` at `Session`, and HMAC-SHA256. -/
structure SessionCodec where
  marshal : Session → Bytes
  unmarshal : Bytes → Option Session
  hmac : (key message : Bytes) → Bytes
  unmarshal_marshal : ∀ sess, unmarshal (marshal sess) = some sess

namespace SessionCodec

def sessionSignature (c : SessionCodec) (payload : Bytes) (sessionSecret : String) : Bytes :=
  c.hmac (Utf8.encode sessionSecret) payload

/-- The payload and the signature of a header that has the two parts. -/
def parts (header : Bytes) : Option (Bytes × Bytes) :=
  match header.splitOn 46 with
  | [first, second] => do return (← Base64.decode false first, ← Base64.decode false second)
  | _ => none

def parseSession (c : SessionCodec) (header : Bytes) (sessionSecret : String) : Option Session := do
  guard (header ≠ [] ∧ sessionSecret ≠ "")
  let (payload, signature) ← parts header
  guard (signature = c.sessionSignature payload sessionSecret)
  c.unmarshal payload

def EncodeSession (c : SessionCodec) (sess : Session) (sessionSecret : String) : Option Bytes :=
  if sessionSecret = "" then none
  else
    let val := c.marshal sess
    some (Base64.encode val ++ 46 :: Base64.encode (c.sessionSignature val sessionSecret))

/-- The header verifies under the secret as the session. -/
structure Verifies (c : SessionCodec) (sessionSecret : String) (header : Bytes) (sess : Session) :
    Prop where
  secret : sessionSecret ≠ ""
  signed : ∃ payload, parts header = some (payload, c.sessionSignature payload sessionSecret) ∧
    c.unmarshal payload = some sess

variable {c : SessionCodec} {sessionSecret : String} {header : Bytes} {sess : Session}

theorem parseSession_eq_some :
    c.parseSession header sessionSecret = some sess ↔ c.Verifies sessionSecret header sess := by
  unfold parseSession
  constructor
  · intro h
    obtain ⟨_, hguard, h⟩ := Option.bind_eq_some_iff.mp h
    obtain ⟨⟨payload, signature⟩, hparts, h⟩ := Option.bind_eq_some_iff.mp h
    obtain ⟨_, hsigned, h⟩ := Option.bind_eq_some_iff.mp h
    obtain ⟨-, hsecret⟩ := (Option.guard_eq_some' _).mp hguard
    have hsignature : signature = _ := (Option.guard_eq_some' _).mp hsigned
    exact ⟨hsecret, payload, hsignature ▸ hparts, h⟩
  · rintro ⟨hsecret, payload, hparts, hpayload⟩
    have hheader : header ≠ [] := by
      intro hnil
      rw [hnil] at hparts
      cases hparts
    simp [hheader, hsecret, hparts, hpayload]

theorem parts_encode (payload signature : Bytes) :
    parts (Base64.encode payload ++ 46 :: Base64.encode signature) = some (payload, signature) := by
  have hdot : ∀ bs : Bytes, (46 : UInt8) ∉ Base64.encode bs := fun bs hmem =>
    (Base64.encode_spec hmem).2.1 rfl
  have hsplit : (Base64.encode payload ++ 46 :: Base64.encode signature).splitOn 46 =
      [Base64.encode payload, Base64.encode signature] := by
    have h : ([46].intercalate [Base64.encode payload, Base64.encode signature]).splitOn 46 =
        [Base64.encode payload, Base64.encode signature] :=
      List.splitOn_intercalate 46 (by simp [hdot]) (List.cons_ne_nil _ _)
    rw [← h]
    simp [List.intercalate]
  unfold parts
  rw [hsplit]
  simp [Base64.decode_encode]

/-- What `EncodeSession` returns verifies as the session. -/
theorem verifies_encode (h : c.EncodeSession sess sessionSecret = some header) :
    c.Verifies sessionSecret header sess := by
  unfold EncodeSession at h
  split at h
  · cases h
  · next hsecret =>
    cases h
    exact ⟨hsecret, _, parts_encode _ _, c.unmarshal_marshal sess⟩

end SessionCodec

/-! ## Sessions as JSON text -/

namespace JSONText

def escape (c : Char) : List Char := if c = '"' ∨ c = '\\' then ['\\', c] else [c]

def quote (s : String) : List Char := '"' :: s.toList.flatMap escape ++ ['"']

/-- The text up to the quote that ends it, and what follows. -/
def unescape : List Char → Option (List Char × List Char)
  | '"' :: rest => some ([], rest)
  | '\\' :: c :: rest => (unescape rest).map fun (s, rest) => (c :: s, rest)
  | c :: rest => (unescape rest).map fun (s, rest) => (c :: s, rest)
  | [] => none

def unquote : List Char → Option (String × List Char)
  | '"' :: rest => (unescape rest).map fun (s, rest) => (String.ofList s, rest)
  | _ => none

theorem unescape_append (s rest : List Char) :
    unescape (s.flatMap escape ++ '"' :: rest) = some (s, rest) := by
  induction s with
  | nil => rfl
  | cons c s ih =>
    rw [List.flatMap_cons, List.append_assoc, escape]
    split
    · next hc => rw [List.cons_append, List.cons_append, List.nil_append, unescape, ih]; rfl
    · next hc =>
      rw [not_or] at hc
      rw [List.cons_append, List.nil_append, unescape.eq_3, ih]
      · rfl
      all_goals simp_all

theorem unquote_quote (s : String) (rest : List Char) :
    unquote (quote s ++ rest) = some (s, rest) := by
  rw [quote, List.append_assoc, List.cons_append]
  show (unescape (s.toList.flatMap escape ++ '"' :: rest)).map _ = _
  rw [unescape_append]
  simp

def sessionText (sess : Session) : List Char :=
  "\x7b\"Account\":".toList ++ quote sess.Account ++ ",\"Salt\":".toList ++ quote sess.Salt ++
    ",\"ExpiredAt\":".toList ++ (toString sess.ExpiredAt).toList ++ ['\x7d']

def readInt (text : List Char) : Option Int :=
  match text with
  | '-' :: digits => (Decimal.parseDigits digits).map fun n => -(n : Int)
  | digits => (Decimal.parseDigits digits).map fun n => (n : Int)

def readSession (text : List Char) : Option Session := do
  let rest ← text.dropPrefix? "\x7b\"Account\":".toList
  let (account, rest) ← unquote rest
  let rest ← rest.dropPrefix? ",\"Salt\":".toList
  let (salt, rest) ← unquote rest
  let rest ← rest.dropPrefix? ",\"ExpiredAt\":".toList
  let expiredAt ← readInt rest.dropLast
  return ⟨account, salt, expiredAt⟩

theorem dropPrefix?_append (p s : List Char) : (p ++ s).dropPrefix? p = some s :=
  List.dropPrefix?_append_of_beq s (beq_self_eq_true p)

theorem readInt_toString (n : Int) : readInt (toString n).toList = some n := by
  cases n with
  | ofNat m =>
    show readInt (String.ofList (Nat.toDigits 10 m)).toList = _
    rw [String.toList_ofList]
    unfold readInt
    split
    · next digits heq =>
      exact absurd (heq ▸ List.mem_cons_self) (Decimal.not_mem_toDigits (c := '-') (by decide) m)
    · rw [Decimal.parseDigits_toDigits]
      rfl
  | negSucc m =>
    have htext : (toString (Int.negSucc m)).toList = '-' :: Nat.toDigits 10 (m + 1) := by
      show ("-" ++ String.ofList (Nat.toDigits 10 (m + 1))).toList = _
      simp only [String.toList_append, String.toList_ofList]
      rfl
    rw [htext, readInt, Decimal.parseDigits_toDigits]
    rfl

theorem readSession_sessionText (sess : Session) : readSession (sessionText sess) = some sess := by
  unfold readSession sessionText
  simp only [List.append_assoc, dropPrefix?_append, unquote_quote, Option.bind_some,
    Option.bind_eq_bind, List.dropLast_concat, readInt_toString]
  rfl

/-- Accounts and salts whose text has no other characters to escape. -/
def codec (hmac : (key message : Bytes) → Bytes) : SessionCodec where
  marshal sess := Utf8.encode (String.ofList (sessionText sess))
  unmarshal payload := (Utf8.decode payload).bind fun text => readSession text.toList
  hmac := hmac
  unmarshal_marshal sess := by
    rw [Utf8.decode_encode, Option.bind_some, String.toList_ofList, readSession_sessionText]

end JSONText

end Cassem.Adm
