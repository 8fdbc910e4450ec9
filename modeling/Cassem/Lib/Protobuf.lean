import Cassem.Lib.Base64
import Mathlib.Algebra.Group.Int.Defs
import Mathlib.Algebra.Group.Nat.Defs
import Mathlib.Data.List.Nodup
import Mathlib.Logic.Equiv.Nat

/-!
# Messages on the wire

What a protobuf library gives its callers: a message that was marshalled is read back, and no
bytes are the message with every field at its default. Messages of texts, numbers and messages, as
they are written, are an instance.
-/

namespace Cassem.Lib.Protobuf

/-- The marshalling of a kind of message. -/
structure Codec (α : Type) [Inhabited α] where
  marshal : α → List UInt8
  unmarshal : List UInt8 → Option α
  unmarshal_marshal : ∀ m, unmarshal (marshal m) = some m
  unmarshal_nil : unmarshal [] = some default

/-! ## Varints -/

/-- Seven bits a byte, the lowest first; the fuel is at least the number. -/
def varintOf : (fuel n : Nat) → List UInt8
  | 0, n => [.ofNat n]
  | fuel + 1, n => if n < 128 then [.ofNat n] else .ofNat (n % 128 + 128) :: varintOf fuel (n / 128)

def varint (n : Nat) : List UInt8 := varintOf n n

/-- The number at the start of the bytes, and what follows it. -/
def readVarint : List UInt8 → Option (Nat × List UInt8)
  | [] => none
  | b :: rest =>
      if b.toNat < 128 then some (b.toNat, rest)
      else (readVarint rest).map fun r => (b.toNat - 128 + 128 * r.1, r.2)

theorem readVarint_varintOf (fuel n : Nat) (h : n ≤ fuel) (rest : List UInt8) :
    readVarint (varintOf fuel n ++ rest) = some (n, rest) := by
  induction fuel generalizing n with
  | zero =>
    obtain rfl : n = 0 := by omega
    rfl
  | succ fuel ih =>
    unfold varintOf
    split
    · next hlt =>
      have hbyte : (UInt8.ofNat n).toNat = n := by
        rw [UInt8.toNat_ofNat']
        omega
      simp only [List.cons_append, List.nil_append, readVarint, hbyte]
      rw [if_pos hlt]
    · next hge =>
      have hbyte : (UInt8.ofNat (n % 128 + 128)).toNat = n % 128 + 128 := by
        rw [UInt8.toNat_ofNat']
        omega
      have hrest := ih (n / 128) (by omega)
      simp only [List.cons_append, readVarint, hbyte, hrest, Option.map_some]
      rw [if_neg (by omega)]
      refine congrArg some (Prod.ext ?_ rfl)
      show n % 128 + 128 - 128 + 128 * (n / 128) = n
      omega

theorem readVarint_varint (n : Nat) (rest : List UInt8) :
    readVarint (varint n ++ rest) = some (n, rest) :=
  readVarint_varintOf n n (Nat.le_refl n) rest

/-! ## Fields -/

/-- A field of the number, below 16, with the bytes under it. -/
def field (number : Nat) (bytes : List UInt8) : List UInt8 :=
  .ofNat (number * 8 + 2) :: varint bytes.length ++ bytes

/-- The fields one after another; the fuel is at least the number of bytes. -/
def readFields : (fuel : Nat) → List UInt8 → Option (List (Nat × List UInt8))
  | _, [] => some []
  | 0, _ :: _ => none
  | fuel + 1, tag :: rest => do
      if tag.toNat % 8 ≠ 2 then none
      let (length, rest) ← readVarint rest
      if rest.length < length then none
      let fields ← readFields fuel (rest.drop length)
      return (tag.toNat / 8, rest.take length) :: fields

theorem readFields_fields (fuel : Nat) (fields : List (Nat × List UInt8))
    (hnumber : ∀ f ∈ fields, f.1 < 16) (hfuel : fields.length ≤ fuel) :
    readFields fuel (fields.flatMap fun f => field f.1 f.2) = some fields := by
  induction fields generalizing fuel with
  | nil => cases fuel <;> rfl
  | cons f fields ih =>
    obtain ⟨number, bytes⟩ := f
    have hlt : number < 16 := hnumber (number, bytes) List.mem_cons_self
    cases fuel with
    | zero => cases hfuel
    | succ fuel =>
      have htag : (UInt8.ofNat (number * 8 + 2)).toNat = number * 8 + 2 := by
        rw [UInt8.toNat_ofNat']
        omega
      have hrest := ih fuel (fun f hf => hnumber f (List.mem_cons_of_mem _ hf))
        (Nat.le_of_succ_le_succ hfuel)
      have hread := readVarint_varint bytes.length
        (bytes ++ fields.flatMap fun f => field f.1 f.2)
      rw [List.flatMap_cons, field, List.cons_append, List.cons_append, List.append_assoc]
      simp only [readFields, htag]
      rw [if_neg (by omega), hread]
      simp only [pure, Option.bind_eq_bind, Option.bind_some, List.drop_left, List.take_left,
        hrest, List.length_append]
      rw [if_neg (by omega)]
      have hdiv : (number * 8 + 2) / 8 = number := by omega
      rw [hdiv]

/-! ## Messages of text fields -/

/-- A field at its default is left out. -/
def fieldsOf (texts : List (Nat × String)) : List (Nat × List UInt8) :=
  (texts.filter fun t => t.2 ≠ "").map fun t => (t.1, Utf8.encode t.2)

def marshalTexts (texts : List (Nat × String)) : List UInt8 :=
  (fieldsOf texts).flatMap fun f => field f.1 f.2

/-- The last value of a field counts. -/
def textOf (fields : List (Nat × List UInt8)) (number : Nat) : Option String :=
  match fields.reverse.find? fun f => f.1 = number with
  | none => some ""
  | some f => Utf8.decode f.2

theorem textOf_fieldsOf {texts : List (Nat × String)} (hnodup : (texts.map (·.1)).Nodup)
    {number : Nat} {text : String} (hmem : (number, text) ∈ texts) :
    textOf (fieldsOf texts) number = some text := by
  have hsame : ∀ t ∈ texts, t.1 = number → t.2 = text := by
    intro t ht hnumber
    have heq := List.inj_on_of_nodup_map hnodup ht hmem hnumber
    exact congrArg Prod.snd heq
  unfold textOf
  cases hfind : (fieldsOf texts).reverse.find? fun f => decide (f.1 = number) with
  | none =>
    -- nothing was written for the field, so it is at its default
    by_contra hne
    have hwritten : (number, Utf8.encode text) ∈ (fieldsOf texts).reverse := by
      refine List.mem_reverse.mpr (List.mem_map.mpr ⟨(number, text), ?_, rfl⟩)
      exact List.mem_filter.mpr ⟨hmem, decide_eq_true fun h => hne (congrArg some h.symm)⟩
    simpa using List.find?_eq_none.mp hfind _ hwritten
  | some f =>
    have hnumber : f.1 = number := by simpa using List.find?_some hfind
    have hf := List.mem_reverse.mp (List.mem_of_find?_eq_some hfind)
    obtain ⟨t, ht, rfl⟩ := List.mem_map.mp hf
    show Utf8.decode (Utf8.encode t.2) = some text
    rw [Utf8.decode_encode, hsame t (List.mem_filter.mp ht).1 hnumber]

/-- What was written for texts under small numbers is read as fields again. -/
theorem readFields_marshalTexts {texts : List (Nat × String)} (hnumber : ∀ t ∈ texts, t.1 < 16) :
    readFields (marshalTexts texts).length (marshalTexts texts) = some (fieldsOf texts) := by
  refine readFields_fields _ _ (fun f hf => ?_) ?_
  · obtain ⟨t, ht, rfl⟩ := List.mem_map.mp hf
    exact hnumber t (List.mem_filter.mp ht).1
  · unfold marshalTexts
    induction fieldsOf texts with
    | nil => exact Nat.le_refl 0
    | cons f fields ih =>
      rw [List.flatMap_cons, List.length_append, List.length_cons]
      have hfield : 0 < (field f.1 f.2).length := Nat.succ_pos _
      omega

/-! ## Messages with numbers -/

/-- A number as 64 bits hold it; the others are written beyond these. -/
def wireOf (n : Int) : Nat :=
  if -2 ^ 63 ≤ n ∧ n < 2 ^ 63 then (n % 2 ^ 64).toNat else 2 ^ 64 + Equiv.intEquivNat n

def numberOf (w : Nat) : Int :=
  if w < 2 ^ 63 then w
  else if w < 2 ^ 64 then w - 2 ^ 64
  else Equiv.intEquivNat.symm (w - 2 ^ 64)

theorem numberOf_wireOf (n : Int) : numberOf (wireOf n) = n := by
  by_cases hrange : -2 ^ 63 ≤ n ∧ n < 2 ^ 63
  · rw [wireOf, if_pos hrange]
    unfold numberOf
    split
    · omega
    · split <;> omega
  · rw [wireOf, if_neg hrange, numberOf, if_neg (by omega), if_neg (by omega),
      Nat.add_sub_cancel_left, Equiv.symm_apply_apply]

/-- What a field of a message holds. -/
inductive Value where
  | number (n : Int)
  | bytes (bytes : List UInt8)
  | message (bytes : Option (List UInt8))

/-- What is written of a field. -/
inductive Wire where
  | number (w : Nat)
  | bytes (bytes : List UInt8)

/-- A field at its default is left out, and a message that is not there. -/
def Value.wire : Value → Option Wire
  | .number n => if n = 0 then none else some (.number (wireOf n))
  | .bytes bs => if bs = [] then none else some (.bytes bs)
  | .message bs => bs.map Wire.bytes

def Wire.field (number : Nat) : Wire → List UInt8
  | .number w => .ofNat (number * 8) :: varint w
  | .bytes bs => Protobuf.field number bs

def wiresOf (values : List (Nat × Value)) : List (Nat × Wire) :=
  values.filterMap fun v => v.2.wire.map fun wire => (v.1, wire)

def marshalValues (values : List (Nat × Value)) : List UInt8 :=
  (wiresOf values).flatMap fun w => w.2.field w.1

def readWires : (fuel : Nat) → List UInt8 → Option (List (Nat × Wire))
  | _, [] => some []
  | 0, _ :: _ => none
  | fuel + 1, tag :: rest => do
      let (w, rest) ← readVarint rest
      if tag.toNat % 8 = 0 then
        let wires ← readWires fuel rest
        return (tag.toNat / 8, .number w) :: wires
      if tag.toNat % 8 ≠ 2 ∨ rest.length < w then none
      let wires ← readWires fuel (rest.drop w)
      return (tag.toNat / 8, .bytes (rest.take w)) :: wires

theorem readWires_fields (fuel : Nat) (wires : List (Nat × Wire)) (hnumber : ∀ w ∈ wires, w.1 < 16)
    (hfuel : wires.length ≤ fuel) :
    readWires fuel (wires.flatMap fun w => w.2.field w.1) = some wires := by
  induction wires generalizing fuel with
  | nil => cases fuel <;> rfl
  | cons w wires ih =>
    obtain ⟨number, wire⟩ := w
    have hlt : number < 16 := hnumber (number, wire) List.mem_cons_self
    cases fuel with
    | zero => cases hfuel
    | succ fuel =>
      have hrest := ih fuel (fun w hw => hnumber w (List.mem_cons_of_mem _ hw))
        (Nat.le_of_succ_le_succ hfuel)
      rw [List.flatMap_cons]
      cases wire with
      | number w =>
        have htag : (UInt8.ofNat (number * 8)).toNat = number * 8 := by
          rw [UInt8.toNat_ofNat']
          omega
        have hread := readVarint_varint w (wires.flatMap fun w => w.2.field w.1)
        rw [Wire.field, List.cons_append]
        simp only [readWires, htag, hread, Option.bind_eq_bind, Option.bind_some]
        rw [if_pos (by omega), hrest, Nat.mul_div_cancel number (by decide)]
        rfl
      | bytes bytes =>
        have htag : (UInt8.ofNat (number * 8 + 2)).toNat = number * 8 + 2 := by
          rw [UInt8.toNat_ofNat']
          omega
        have hread := readVarint_varint bytes.length
          (bytes ++ wires.flatMap fun w => w.2.field w.1)
        rw [Wire.field, Protobuf.field, List.cons_append, List.cons_append, List.append_assoc]
        simp only [readWires, htag, hread, Option.bind_eq_bind, Option.bind_some,
          List.length_append, List.drop_left, List.take_left, hrest]
        have hdiv : (number * 8 + 2) / 8 = number := by omega
        rw [if_neg (by omega), if_neg (by omega), hdiv]
        rfl

/-- The last value of a field counts. -/
def wireAt (wires : List (Nat × Wire)) (number : Nat) : Option Wire :=
  (wires.reverse.find? fun w => w.1 = number).map (·.2)

theorem wireAt_wiresOf {values : List (Nat × Value)} (hnodup : (values.map (·.1)).Nodup)
    {number : Nat} {value : Value} (hmem : (number, value) ∈ values) :
    wireAt (wiresOf values) number = value.wire := by
  have hsame : ∀ w ∈ wiresOf values, w.1 = number → value.wire = some w.2 := by
    intro w hw hnumber
    obtain ⟨v, hv, hv'⟩ := List.mem_filterMap.mp hw
    obtain ⟨wire, hwire, rfl⟩ := Option.map_eq_some_iff.mp hv'
    have heq := List.inj_on_of_nodup_map hnodup hv hmem hnumber
    rw [heq] at hwire
    exact hwire
  unfold wireAt
  cases hfind : (wiresOf values).reverse.find? fun w => decide (w.1 = number) with
  | none =>
    cases hwire : value.wire with
    | none => rfl
    | some wire =>
      have hwritten : (number, wire) ∈ (wiresOf values).reverse :=
        List.mem_reverse.mpr (List.mem_filterMap.mpr ⟨_, hmem, by rw [hwire]; rfl⟩)
      simpa using List.find?_eq_none.mp hfind _ hwritten
  | some w =>
    have hnumber : w.1 = number := by simpa using List.find?_some hfind
    have hw := List.mem_reverse.mp (List.mem_of_find?_eq_some hfind)
    exact (hsame w hw hnumber).symm

def numberAt (wires : List (Nat × Wire)) (number : Nat) : Option Int :=
  match wireAt wires number with
  | none => some 0
  | some (.number w) => some (numberOf w)
  | some (.bytes _) => none

def bytesAt (wires : List (Nat × Wire)) (number : Nat) : Option (List UInt8) :=
  match wireAt wires number with
  | none => some []
  | some (.bytes bytes) => some bytes
  | some (.number _) => none

def textAt (wires : List (Nat × Wire)) (number : Nat) : Option String :=
  (bytesAt wires number).bind Utf8.decode

def messageAt (wires : List (Nat × Wire)) (number : Nat) : Option (Option (List UInt8)) :=
  match wireAt wires number with
  | none => some none
  | some (.bytes bytes) => some (some bytes)
  | some (.number _) => none

section At

variable {wires : List (Nat × Wire)} {number : Nat}

theorem numberAt_eq {n : Int} (h : wireAt wires number = (Value.number n).wire) :
    numberAt wires number = some n := by
  rw [numberAt, h, Value.wire]
  by_cases hn : n = 0
  · rw [if_pos hn, hn]
  · rw [if_neg hn]
    exact congrArg some (numberOf_wireOf n)

theorem bytesAt_eq {bytes : List UInt8} (h : wireAt wires number = (Value.bytes bytes).wire) :
    bytesAt wires number = some bytes := by
  rw [bytesAt, h, Value.wire]
  by_cases hbytes : bytes = []
  · rw [if_pos hbytes, hbytes]
  · rw [if_neg hbytes]

theorem textAt_eq {text : String}
    (h : wireAt wires number = (Value.bytes (Utf8.encode text)).wire) :
    textAt wires number = some text := by
  rw [textAt, bytesAt_eq h, Option.bind_some, Utf8.decode_encode]

theorem messageAt_eq {bytes : Option (List UInt8)}
    (h : wireAt wires number = (Value.message bytes).wire) :
    messageAt wires number = some bytes := by
  rw [messageAt, h]
  cases bytes <;> rfl

end At

/-- The codec of a kind of message, of which the fields are known. -/
def Codec.ofValues {α : Type} [Inhabited α] (values : α → List (Nat × Value))
    (read : List (Nat × Wire) → Option α) (hnumber : ∀ m, ∀ v ∈ values m, v.1 < 16)
    (hnodup : ∀ m, ((values m).map (·.1)).Nodup)
    (hread : ∀ m wires, (∀ v ∈ values m, wireAt wires v.1 = v.2.wire) → read wires = some m)
    (hnil : read [] = some default) : Codec α where
  marshal m := marshalValues (values m)
  unmarshal bytes := (readWires bytes.length bytes).bind read
  unmarshal_marshal m := by
    have hfields : readWires (marshalValues (values m)).length (marshalValues (values m)) =
        some (wiresOf (values m)) := by
      refine readWires_fields _ _ (fun w hw => ?_) ?_
      · obtain ⟨v, hv, hwire⟩ := List.mem_filterMap.mp hw
        obtain ⟨wire, -, rfl⟩ := Option.map_eq_some_iff.mp hwire
        exact hnumber m v hv
      · unfold marshalValues
        induction wiresOf (values m) with
        | nil => exact Nat.le_refl 0
        | cons w wires ih =>
          have hfield : 0 < (w.2.field w.1).length := by
            cases w.2 <;> exact Nat.succ_pos _
          rw [List.flatMap_cons, List.length_append, List.length_cons]
          omega
    rw [hfields, Option.bind_some]
    exact hread m _ fun v hv => wireAt_wiresOf (hnodup m) hv
  unmarshal_nil := hnil

end Cassem.Lib.Protobuf
