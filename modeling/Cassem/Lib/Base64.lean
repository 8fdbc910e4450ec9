import Mathlib.Data.List.Basic
import Mathlib.Tactic.SplitIfs

/-!
# Text as bytes, and base64

The UTF-8 encoding of a text, and base64 with the URL alphabet and no padding, as
`encoding/base64` reads it: line breaks are passed over wherever they stand, and the bits that
are left at the end have to be zero in strict mode only. Base64 with the standard alphabet and
padding is read as browsers do.
-/

namespace Cassem.Lib

/-! ## Text as bytes -/

namespace Utf8

def encode (s : String) : List UInt8 := s.toByteArray.data.toList

def decode (bs : List UInt8) : Option String := String.fromUTF8? ⟨bs.toArray⟩

theorem decode_encode (s : String) : decode (encode s) = some s := by
  have hvalid : ByteArray.IsValidUTF8 ⟨s.toByteArray.data.toList.toArray⟩ := by
    rw [Array.toArray_toList]
    exact s.isValidUTF8
  unfold decode encode String.fromUTF8?
  rw [dif_pos hvalid]
  congr 1

theorem decode_eq_some {bs : List UInt8} {s : String} : decode bs = some s ↔ encode s = bs := by
  constructor
  · intro h
    unfold decode String.fromUTF8? at h
    split at h
    · cases h
      rfl
    · cases h
  · rintro rfl
    exact decode_encode s

theorem encode_inj {s t : String} : encode s = encode t ↔ s = t := by
  refine ⟨fun h => ?_, congrArg encode⟩
  have hs := decode_encode s
  rw [h, decode_encode] at hs
  exact (Option.some.inj hs).symm

/-- A text of bytes below 128, each a character. -/
def ascii (bs : List UInt8) : String := String.ofList (bs.map fun b => Char.ofNat b.toNat)

theorem encode_ofList (l : List Char) : encode (String.ofList l) = l.flatMap String.utf8EncodeChar := by
  rw [encode, String.toByteArray_ofList, List.utf8Encode, List.data_toByteArray]

theorem utf8EncodeChar_ofNat : ∀ n < 128, String.utf8EncodeChar (Char.ofNat n) = [UInt8.ofNat n] := by
  decide

theorem encode_ascii {bs : List UInt8} (h : ∀ b ∈ bs, b.toNat < 128) : encode (ascii bs) = bs := by
  rw [ascii, encode_ofList, List.flatMap_map]
  induction bs with
  | nil => rfl
  | cons b bs ih =>
    rw [List.flatMap_cons, utf8EncodeChar_ofNat _ (h b List.mem_cons_self), UInt8.ofNat_toNat,
      ih fun x hx => h x (List.mem_cons_of_mem _ hx)]
    rfl
end Utf8

/-! ## Base64 -/

namespace Base64

def encodeDigit (n : Nat) : UInt8 :=
  if n < 26 then .ofNat (65 + n)
  else if n < 52 then .ofNat (71 + n)
  else if n < 62 then .ofNat (n - 4)
  else if n = 62 then 45
  else 95

def decodeDigit (c : UInt8) : Option Nat :=
  if 65 ≤ c ∧ c ≤ 90 then some (c.toNat - 65)
  else if 97 ≤ c ∧ c ≤ 122 then some (c.toNat - 71)
  else if 48 ≤ c ∧ c ≤ 57 then some (c.toNat + 4)
  else if c = 45 then some 62
  else if c = 95 then some 63
  else none

/-- The values of the digits: three bytes are four digits, what is left over is filled up
with zero bits. -/
def digits : List UInt8 → List Nat
  | [] => []
  | [a] => [a.toNat / 4, a.toNat % 4 * 16]
  | [a, b] => [a.toNat / 4, a.toNat % 4 * 16 + b.toNat / 16, b.toNat % 16 * 4]
  | a :: b :: c :: rest =>
      a.toNat / 4 :: (a.toNat % 4 * 16 + b.toNat / 16) :: (b.toNat % 16 * 4 + c.toNat / 64) ::
        c.toNat % 64 :: digits rest

def encode (bs : List UInt8) : List UInt8 := (digits bs).map encodeDigit

def quanta (strict : Bool) : List Nat → Option (List UInt8)
  | [] => some []
  | [_] => none
  | [x, y] => if strict && y % 16 ≠ 0 then none else some [.ofNat (x * 4 + y / 16)]
  | [x, y, z] =>
      if strict && z % 4 ≠ 0 then none
      else some [.ofNat (x * 4 + y / 16), .ofNat (y % 16 * 16 + z / 4)]
  | x :: y :: z :: w :: rest =>
      (quanta strict rest).map fun bs =>
        .ofNat (x * 4 + y / 16) :: .ofNat (y % 16 * 16 + z / 4) :: .ofNat (z % 4 * 64 + w) :: bs

def isLineBreak (c : UInt8) : Bool := c = 10 || c = 13

def decode (strict : Bool) (src : List UInt8) : Option (List UInt8) :=
  ((src.filter fun c => !isLineBreak c).mapM decodeDigit).bind (quanta strict)

/-- A digit is none of the characters that end a field, a path segment or a line. -/
theorem encodeDigit_spec : ∀ n < 64, decodeDigit (encodeDigit n) = some n ∧
    isLineBreak (encodeDigit n) = false ∧ encodeDigit n ≠ 46 ∧ encodeDigit n ≠ 47 := by
  decide

theorem digits_lt (bs : List UInt8) : ∀ n ∈ digits bs, n < 64 := by
  fun_induction digits bs with
  | case1 => exact fun n hn => absurd hn List.not_mem_nil
  | case2 a =>
    have ha := a.toNat_lt
    simp only [List.forall_mem_cons]
    exact ⟨by omega, by omega, fun n hn => absurd hn List.not_mem_nil⟩
  | case3 a b =>
    have ha := a.toNat_lt
    have hb := b.toNat_lt
    simp only [List.forall_mem_cons]
    exact ⟨by omega, by omega, by omega, fun n hn => absurd hn List.not_mem_nil⟩
  | case4 a b c rest ih =>
    have ha := a.toNat_lt
    have hb := b.toNat_lt
    have hc := c.toNat_lt
    simp only [List.forall_mem_cons]
    exact ⟨by omega, by omega, by omega, by omega, ih⟩

theorem ofNat_eq {a : UInt8} {n : Nat} (h : n = a.toNat) : UInt8.ofNat n = a := by
  rw [h, UInt8.ofNat_toNat]

theorem quanta_digits (strict : Bool) (bs : List UInt8) : quanta strict (digits bs) = some bs := by
  fun_induction digits bs with
  | case1 => rfl
  | case2 a =>
    have hrest : a.toNat % 4 * 16 % 16 = 0 := by omega
    have ha : UInt8.ofNat (a.toNat / 4 * 4 + a.toNat % 4 * 16 / 16) = a := ofNat_eq (by omega)
    rw [quanta, ha, hrest]
    cases strict <;> rfl
  | case3 a b =>
    have hb := b.toNat_lt
    have hrest : b.toNat % 16 * 4 % 4 = 0 := by omega
    have ha : UInt8.ofNat (a.toNat / 4 * 4 + (a.toNat % 4 * 16 + b.toNat / 16) / 16) = a :=
      ofNat_eq (by omega)
    have hb : UInt8.ofNat ((a.toNat % 4 * 16 + b.toNat / 16) % 16 * 16 + b.toNat % 16 * 4 / 4) =
      b := ofNat_eq (by omega)
    rw [quanta, ha, hb, hrest]
    cases strict <;> rfl
  | case4 a b c rest ih =>
    have hb := b.toNat_lt
    have hc := c.toNat_lt
    have ha : UInt8.ofNat (a.toNat / 4 * 4 + (a.toNat % 4 * 16 + b.toNat / 16) / 16) = a :=
      ofNat_eq (by omega)
    have hb : UInt8.ofNat ((a.toNat % 4 * 16 + b.toNat / 16) % 16 * 16 +
      (b.toNat % 16 * 4 + c.toNat / 64) / 4) = b := ofNat_eq (by omega)
    have hc : UInt8.ofNat ((b.toNat % 16 * 4 + c.toNat / 64) % 4 * 64 + c.toNat % 64) = c :=
      ofNat_eq (by omega)
    rw [quanta, ih, Option.map_some, ha, hb, hc]

theorem encode_spec {bs : List UInt8} {c : UInt8} (h : c ∈ encode bs) :
    isLineBreak c = false ∧ c ≠ 46 ∧ c ≠ 47 := by
  obtain ⟨n, hn, rfl⟩ := List.mem_map.mp h
  exact (encodeDigit_spec n (digits_lt bs n hn)).2

theorem decode_encode (strict : Bool) (bs : List UInt8) : decode strict (encode bs) = some bs := by
  have hkept : (encode bs).filter (fun c => !isLineBreak c) = encode bs :=
    List.filter_eq_self.mpr fun c hc => by rw [(encode_spec hc).1]; rfl
  have hread : (encode bs).mapM decodeDigit = some (digits bs) := by
    have hlt := digits_lt bs
    unfold encode
    generalize digits bs = ns at hlt
    induction ns with
    | nil => rfl
    | cons n ns ih =>
      have hn := (encodeDigit_spec n (hlt n List.mem_cons_self)).1
      have hns := ih fun m hm => hlt m (List.mem_cons_of_mem _ hm)
      rw [List.map_cons, List.mapM_cons, hn, hns]
      rfl
  unfold decode
  rw [hkept, hread, Option.bind_some, quanta_digits]

theorem encode_inj {bs cs : List UInt8} : encode bs = encode cs ↔ bs = cs := by
  refine ⟨fun h => ?_, congrArg encode⟩
  have hbs := decode_encode true bs
  rw [h, decode_encode] at hbs
  exact (Option.some.inj hbs).symm

theorem length_encode (bs : List UInt8) : (encode bs).length = (4 * bs.length + 2) / 3 := by
  unfold encode
  rw [List.length_map]
  fun_induction digits bs with
  | case1 => rfl
  | case2 a => show 2 = (4 * 1 + 2) / 3; rfl
  | case3 a b => show 3 = (4 * 2 + 2) / 3; rfl
  | case4 a b c rest ih =>
    simp only [List.length_cons, ih]
    omega

end Base64

/-! ## The standard alphabet, with padding -/

namespace Base64

def encodeStdDigit (n : Nat) : UInt8 := if n = 62 then 43 else if n = 63 then 47 else encodeDigit n

def decodeStdDigit (c : UInt8) : Option Nat :=
  if c = 43 then some 62 else if c = 47 then some 63 else if c = 45 ∨ c = 95 then none
  else decodeDigit c

def encodeStd (bs : List UInt8) : List UInt8 :=
  let ds := (digits bs).map encodeStdDigit
  ds ++ List.replicate ((4 - ds.length % 4) % 4) 61

def isSpace (c : UInt8) : Bool := c = 9 || c = 10 || c = 12 || c = 13 || c = 32

/-- Without the padding of at most two characters that it ends with. -/
def trimPadding (src : List UInt8) : List UInt8 :=
  match src.reverse with
  | 61 :: 61 :: rest => rest.reverse
  | 61 :: rest => rest.reverse
  | _ => src

/-- The forgiving decoder of browsers: white space and missing padding are no errors, nor are bits
that are left over. -/
def decodeForgiving (src : List UInt8) : Option (List UInt8) :=
  let src := src.filter fun c => !isSpace c
  let src := if src.length % 4 = 0 then trimPadding src else src
  (src.mapM decodeStdDigit).bind (quanta false)

theorem encodeStdDigit_spec : ∀ n < 64, decodeStdDigit (encodeStdDigit n) = some n ∧
    isSpace (encodeStdDigit n) = false ∧ encodeStdDigit n ≠ 61 ∧
      (encodeStdDigit n).toNat < 128 := by
  decide

theorem length_digits (bs : List UInt8) : (digits bs).length % 4 ≠ 1 := by
  fun_induction digits bs with
  | case1 => decide
  | case2 a => exact show 2 % 4 ≠ 1 by decide
  | case3 a b => exact show 3 % 4 ≠ 1 by decide
  | case4 a b c rest ih =>
    simp only [List.length_cons]
    omega

theorem trimPadding_append {ds : List UInt8} (hds : ∀ c ∈ ds, c ≠ 61) {k : Nat} (hk : k ≤ 2) :
    trimPadding (ds ++ List.replicate k 61) = ds := by
  have hrev : (ds ++ List.replicate k 61).reverse = List.replicate k 61 ++ ds.reverse := by
    rw [List.reverse_append, List.reverse_replicate]
  have hhead : ∀ rest, ds.reverse ≠ 61 :: rest := by
    intro rest h
    exact hds 61 (List.mem_reverse.mp (h ▸ List.mem_cons_self)) rfl
  unfold trimPadding
  rw [hrev]
  match k, hk with
  | 0, _ =>
    rw [List.replicate_zero, List.nil_append, List.append_nil]
    split
    · next h => exact absurd h (hhead _)
    · next h => exact absurd h (hhead _)
    · rfl
  | 1, _ =>
    show (match 61 :: ds.reverse with
      | 61 :: 61 :: rest => rest.reverse
      | 61 :: rest => rest.reverse
      | _ => ds ++ [61]) = ds
    split
    · next rest h => exact absurd (List.cons.inj h).2 (hhead _)
    · next rest _ h => rw [← (List.cons.inj h).2, List.reverse_reverse]
    · next hno => exact absurd rfl (hno _)
  | 2, _ => exact List.reverse_reverse ds

theorem decodeForgiving_encodeStd (bs : List UInt8) : decodeForgiving (encodeStd bs) = some bs := by
  have hlt := digits_lt bs
  have hlen := length_digits bs
  have hdigit : ∀ c ∈ (digits bs).map encodeStdDigit, isSpace c = false ∧ c ≠ 61 := by
    intro c hc
    obtain ⟨n, hn, rfl⟩ := List.mem_map.mp hc
    exact ⟨(encodeStdDigit_spec n (hlt n hn)).2.1, (encodeStdDigit_spec n (hlt n hn)).2.2.1⟩
  have hread : ((digits bs).map encodeStdDigit).mapM decodeStdDigit = some (digits bs) := by
    generalize digits bs = ns at hlt
    induction ns with
    | nil => rfl
    | cons n ns ih =>
      have hn := (encodeStdDigit_spec n (hlt n List.mem_cons_self)).1
      have hns := ih fun m hm => hlt m (List.mem_cons_of_mem _ hm)
      rw [List.map_cons, List.mapM_cons, hn, hns]
      rfl
  have hkept : (encodeStd bs).filter (fun c => !isSpace c) = encodeStd bs := by
    refine List.filter_eq_self.mpr fun c hc => ?_
    rcases List.mem_append.mp hc with hc | hc
    · rw [(hdigit c hc).1]
      rfl
    · rw [List.eq_of_mem_replicate hc]
      rfl
  have hmod : (encodeStd bs).length % 4 = 0 := by
    unfold encodeStd
    simp only [List.length_append, List.length_replicate, List.length_map]
    omega
  have htrim : trimPadding (encodeStd bs) = (digits bs).map encodeStdDigit := by
    refine trimPadding_append (fun c hc => (hdigit c hc).2) ?_
    rw [List.length_map]
    omega
  unfold decodeForgiving
  simp only [hkept, hmod, if_true, htrim, hread, Option.bind_some, quanta_digits]

theorem encodeStd_lt {bs : List UInt8} {c : UInt8} (h : c ∈ encodeStd bs) : c.toNat < 128 := by
  rcases List.mem_append.mp h with hc | hc
  · obtain ⟨n, hn, rfl⟩ := List.mem_map.mp hc
    exact (encodeStdDigit_spec n (digits_lt bs n hn)).2.2.2
  · rw [List.eq_of_mem_replicate hc]
    decide

end Base64

end Cassem.Lib
