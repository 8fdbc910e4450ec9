import Cassem.Adm.RetentionGC
import Cassem.Adm.Route
import Cassem.Coord.Read
import Cassem.Coord.Token
import Cassem.KV.RangePaging

/-!
# Searching elements and apps

A search reads the listing of a directory page by page, keeps what matches the query, and stops
when it has one match more than the limit, which tells where the next page of the search begins.
The limit comes from the request as it is; the KV service looks at the limit of each page.
-/

namespace Cassem.KV

/-! ## The KV service -/

/-- The request on the wire. -/
structure RangeCall where
  key : String
  seek : String
  limit : Int32

/-- What the interceptor makes of a request that its rules do not accept; the text of a violation
is the validator's. -/
def validateRange (violation : RangeCall → String) (req : RangeCall) : Option GoError :=
  if req.key.length < 2 ∨ req.limit.toInt < 1 ∨ 100 < req.limit.toInt then
    some (.concept ⟨.invalidArgument, violation req⟩)
  else none

def serveRange (violation : RangeCall → String) (now : Int) (store : Store) (req : RangeCall) :
    Except GoError RangeResp :=
  match validateRange violation req with
  | some err => .error err
  | none => Range now store ⟨req.key, req.seek, req.limit.toInt.toNat⟩

theorem serveRange_rejects (violation : RangeCall → String) (req : RangeCall)
    (h : req.limit.toInt < 1 ∨ 100 < req.limit.toInt) (now : Int) (store : Store) :
    serveRange violation now store req = .error (.concept ⟨.invalidArgument, violation req⟩) := by
  have hrejected : validateRange violation req =
      some (.concept ⟨.invalidArgument, violation req⟩) := if_pos (.inr h)
  rw [serveRange, hrejected]

theorem serveRange_accepts (violation : RangeCall → String) (req : RangeCall)
    (hkey : 2 ≤ req.key.length) (h : 1 ≤ req.limit.toInt ∧ req.limit.toInt ≤ 100) (now : Int)
    (store : Store) :
    serveRange violation now store req =
      Range now store ⟨req.key, req.seek, req.limit.toInt.toNat⟩ := by
  have haccepted : validateRange violation req = none := if_neg (by omega)
  rw [serveRange, haccepted]

end Cassem.KV

namespace Cassem.Coord

open Lib Cassem.Concept
open KV (Bytes Entity RangeResp PageRead)

/-! ## The searches -/

/-- An error or a panic of what is called, a capacity that cannot be allocated, or an index out of
bounds. -/
inductive SearchFault where
  | fault (fault : Fault)
  | makeslice (cap : Int)
  | bounds (index : Int)

/-- `make` with a capacity, where there is room for `maxCap` entries. -/
def makeslice (maxCap : Nat) (cap : Int) : Except SearchFault Unit :=
  if cap < 0 ∨ (maxCap : Int) < cap then .error (.makeslice cap) else .ok ()

section Loop

variable {μ : Type} (found : Entity → Option μ) (limit : Int)

/-- The entries of one page, up to the match that is one too many. -/
def collect (matched : List μ) : List Entity → List μ
  | [] => matched
  | v :: rest =>
      match found v with
      | none => collect matched rest
      | some m =>
          if limit < (matched ++ [m]).length then matched ++ [m]
          else collect (matched ++ [m]) rest

/-- The loop of a search, and whether it came to the end of the listing. `page` reads the n-th
page. -/
def searchPages (page : Nat → String → Except GoError RangeResp) :
    Nat → Nat → String → List μ → Option (Except GoError (List μ × Bool))
  | 0, _, _, _ => none
  | fuel + 1, n, nextSeek, matched =>
      if limit < matched.length then some (.ok (matched, false))
      else
        match page n nextSeek with
        | .error err => some (.error err)
        | .ok r =>
            let matched := collect found limit matched r.entities
            if limit < matched.length then some (.ok (matched, false))
            else if r.hasMore then searchPages page fuel (n + 1) r.nextSeekKey matched
            else some (.ok (matched, true))

/-- `matched[:limit]`. -/
def sliceTo (matched : List μ) : Except SearchFault (List μ) :=
  if limit < 0 ∨ (matched.length : Int) < limit then .error (.bounds limit)
  else .ok (matched.take limit.toNat)

/-- `matched[limit]`. -/
def indexAt (matched : List μ) : Except SearchFault μ :=
  if limit < 0 then .error (.bounds limit)
  else
    match matched[limit.toNat]? with
    | some m => .ok m
    | none => .error (.bounds limit)

end Loop

structure CommonPager where
  HasMore : Bool
  NextSeek : String
  deriving DecidableEq, Repr

structure GetElementsResult where
  CommonPager : CommonPager
  Elements : List Element

structure GetAppsResult where
  CommonPager : CommonPager
  Apps : List Adm.AppMetadata
  deriving DecidableEq, Repr

/-- `strings.Contains`. -/
def contains (s substr : String) : Bool := decide (substr.toList <:+: s.toList)

def ExtractPureKey (key : String) : String := (KV.split key).getLastD key

/-- What the searches rest on: the mapping of letters to lower case, the room for a slice, what
unmarshalling leaves in a new record of an app, and the KV service. That is a store that stays, of
which the n-th page is read at `clock n`, and the values in it by their keys. -/
structure Searcher where
  lower : Char → Char
  maxCap : Nat
  unmarshalApp : Bytes → Adm.AppMetadata
  violation : KV.RangeCall → String
  clock : Nat → Int
  store : KV.Store
  kv : KVState

namespace Searcher

variable (s : Searcher)

def range (n : Nat) (req : KV.RangeCall) : Except GoError RangeResp :=
  KV.serveRange s.violation (s.clock n) s.store req

/-- `strings.ToLower`. -/
def toLower (str : String) : String := str.map s.lower

def elementFound (needle : String) (v : Entity) : Option String :=
  let key := ExtractPureKey v.key
  if contains (s.toLower key) needle then some key else none

def appFound (needle : String) (v : Entity) : Option Adm.AppMetadata :=
  let md := s.unmarshalApp v.val
  if contains (s.toLower md.Id) needle || contains (s.toLower md.Description) needle then some md
  else none

def getElementsByKeys (app env : String) (keys : List String) :
    Except SearchFault (List Element) :=
  (Coord.getElementsByKeys s.kv app env keys).mapError .fault

/-- What both searches do: allocate, go through the pages, and make a result of the matches. With
too little fuel a search does not come to its end. -/
def search {μ ρ : Type} (found : Entity → Option μ) (key seek : String) (limit : Int64)
    (result : Except GoError (List μ × Bool) → Except SearchFault ρ) (fuel : Nat) :
    Option (Except SearchFault ρ) :=
  match makeslice s.maxCap (limit + 1).toInt with
  | .error fault => some (.error fault)
  | .ok () =>
      (searchPages found limit.toInt (fun n nextSeek => s.range n ⟨key, nextSeek, limit.toInt32⟩)
        fuel 0 seek []).map result

def elementsResult (app env : String) (limit : Int64) :
    Except GoError (List String × Bool) → Except SearchFault GetElementsResult
  | .error err => .error (.fault (.error err))
  | .ok (matched, true) => do
      let elements ← s.getElementsByKeys app env matched
      return ⟨⟨false, ""⟩, elements⟩
  | .ok (matched, false) => do
      let page ← sliceTo limit.toInt matched
      let elements ← s.getElementsByKeys app env page
      let next ← indexAt limit.toInt matched
      return ⟨⟨true, next⟩, elements⟩

def appsResult (limit : Int64) :
    Except GoError (List Adm.AppMetadata × Bool) → Except SearchFault GetAppsResult
  | .error err => .error (.fault (.error err))
  | .ok (matched, true) => .ok ⟨⟨false, ""⟩, matched⟩
  | .ok (matched, false) => do
      let next ← indexAt limit.toInt matched
      let page ← sliceTo limit.toInt matched
      return ⟨⟨true, next.Id⟩, page⟩

def GetElements (app env seek : String) (limit : Int64) (query : String) (fuel : Nat) :
    Option (Except SearchFault GetElementsResult) :=
  let k := Adm.Retention.GenAppElementEnvKey app env
  if trimSpace query = "" then
    match s.range 0 ⟨k, seek, limit.toInt32⟩ with
    | .error err => some (.error (.fault (.error err)))
    | .ok r => some do
        let elements ← s.getElementsByKeys app env (r.entities.map fun v => ExtractPureKey v.key)
        return ⟨⟨r.hasMore, r.nextSeekKey⟩, elements⟩
  else
    let needle := s.toLower (trimSpace query)
    s.search (s.elementFound needle) k seek limit (s.elementsResult app env limit) fuel

def GetApps (seek : String) (limit : Int64) (query : String) (fuel : Nat) :
    Option (Except SearchFault GetAppsResult) :=
  if trimSpace query = "" then
    match s.range 0 ⟨"cassem/apps", seek, limit.toInt32⟩ with
    | .error err => some (.error (.fault (.error err)))
    | .ok r => some (.ok ⟨⟨r.hasMore, r.nextSeekKey⟩, r.entities.map fun v => s.unmarshalApp v.val⟩)
  else
    let needle := s.toLower (trimSpace query)
    s.search (s.appFound needle) "cassem/apps" seek limit (appsResult limit) fuel

end Searcher

/-! ## The loop over the pages of a listing -/

section Loop

variable {μ : Type} {found : Entity → Option μ} {limit : Int}

/-- The same over all the pages at once. -/
def searchIn (found : Entity → Option μ) (limit : Int) : List PageRead → List μ → List μ × Bool
  | [], matched => (matched, true)
  | page :: pages, matched =>
      let matched := collect found limit matched page.resp.entities
      if limit < matched.length then (matched, false) else searchIn found limit pages matched

/-- A search that stopped before the end of the listing has a match too many. -/
theorem searchPages_overfull {page : Nat → String → Except GoError RangeResp} {fuel n : Nat}
    {seek : String} {matched matched' : List μ}
    (h : searchPages found limit page fuel n seek matched = some (.ok (matched', false))) :
    limit < matched'.length := by
  induction fuel generalizing n seek matched with
  | zero => cases h
  | succ fuel ih =>
    unfold searchPages at h
    split at h
    · next hlt =>
      cases h
      exact hlt
    · split at h
      · cases h
      · dsimp only at h
        split at h
        · next hlt =>
          cases h
          exact hlt
        · split at h
          · exact ih h
          · cases h

/-- The search reads the pages of the listing, as far as it goes. -/
theorem searchPages_of_listPages {page : Nat → String → Except GoError RangeResp}
    {clock : Nat → Int} {store : KV.Store} {key : String} {size : Nat}
    (hpage : ∀ n seek, page n seek = KV.Range (clock n) store ⟨key, seek, size⟩) {fuel n : Nat}
    {seek : String} {pages : List PageRead}
    (h : KV.listPages clock store key size fuel n seek = some (.ok pages)) {matched : List μ}
    (hmatched : ¬ limit < matched.length) :
    searchPages found limit page fuel n seek matched = some (.ok (searchIn found limit pages matched)) := by
  induction fuel generalizing n seek pages matched with
  | zero => cases h
  | succ fuel ih =>
    unfold KV.listPages at h
    unfold searchPages
    rw [if_neg hmatched, hpage]
    cases hr : KV.Range (clock n) store ⟨key, seek, size⟩ with
    | error err =>
      rw [hr] at h
      cases h
    | ok r =>
      rw [hr] at h
      dsimp only at h ⊢
      split at h
      · next hmore =>
        obtain ⟨rest, hrest, hpages⟩ := Option.map_eq_some_iff.mp h
        obtain ⟨pages', rfl⟩ : ∃ pages', rest = .ok pages' := by
          cases rest with
          | error err => cases hpages
          | ok pages' => exact ⟨pages', rfl⟩
        cases hpages
        rw [searchIn, hmore]
        dsimp only
        split
        · rfl
        · next hfull => exact ih hrest hfull
      · next hmore =>
        cases h
        rw [searchIn, Bool.eq_false_of_not_eq_true hmore]
        dsimp only
        split <;> rfl

end Loop

/-! ## Every search comes to its end -/

/-- With enough fuel the run ends so. -/
def Ends {ρ : Type} (run : Nat → Option ρ) (r : ρ) : Prop :=
  ∃ fuel, ∀ more, fuel ≤ more → run more = some r

/-- No index is out of bounds, and no slice has a negative capacity. -/
structure InBounds {ρ : Type} (r : Except SearchFault ρ) : Prop where
  bounds : ∀ i, r ≠ .error (.bounds i)
  makeslice : ∀ cap, r = .error (.makeslice cap) → 0 ≤ cap

/-- The run comes to an end that is in bounds. -/
def Safe {ρ : Type} (run : Nat → Option (Except SearchFault ρ)) : Prop :=
  ∃ r, Ends run r ∧ InBounds r

theorem Ends.unique {ρ : Type} {run : Nat → Option ρ} {r r' : ρ} (h : Ends run r)
    (h' : Ends run r') : r = r' := by
  obtain ⟨fuel, hrun⟩ := h
  obtain ⟨fuel', hrun'⟩ := h'
  have hleft := hrun (max fuel fuel') (le_max_left ..)
  have hright := hrun' (max fuel fuel') (le_max_right ..)
  exact Option.some.inj (hleft.symm.trans hright)

theorem InBounds.ok {ρ : Type} (a : ρ) : InBounds (.ok a) := ⟨nofun, nofun⟩

theorem InBounds.fault {ρ : Type} (fault : Fault) : InBounds (.error (.fault fault) : Except _ ρ) :=
  ⟨nofun, nofun⟩

theorem InBounds.bind {ρ τ : Type} {x : Except SearchFault ρ} {f : ρ → Except SearchFault τ}
    (hx : InBounds x) (hf : ∀ a, InBounds (f a)) : InBounds (x >>= f) := by
  cases x with
  | error fault => exact ⟨fun i h => hx.bounds i (by cases h; rfl),
      fun cap h => hx.makeslice cap (by cases h; rfl)⟩
  | ok a => exact hf a

section Ends

variable {μ : Type} {limit : Int}

theorem sliceTo_ok {matched : List μ} (hlimit : 0 ≤ limit) (h : limit < matched.length) :
    sliceTo limit matched = .ok (matched.take limit.toNat) := if_neg (by omega)

theorem indexAt_ok {matched : List μ} (hlimit : 0 ≤ limit) (h : limit < matched.length) :
    ∃ m, matched[limit.toNat]? = some m ∧ indexAt limit matched = .ok m := by
  obtain ⟨m, hm⟩ : ∃ m, matched[limit.toNat]? = some m :=
    ⟨_, List.getElem?_eq_getElem (by omega : limit.toNat < matched.length)⟩
  refine ⟨m, hm, ?_⟩
  rw [indexAt, if_neg (not_lt.mpr hlimit), hm]

variable {found : Entity → Option μ} {violation : KV.RangeCall → String} {clock : Nat → Int}
  {store : KV.Store} {key : String} {size : Int32}

/-- The loop ends whatever the limit of a page is: the KV service refuses it, or the listing has
an end. -/
theorem searchPages_ends (found : Entity → Option μ) (hlimit : 0 ≤ limit) (hkey : 2 ≤ key.length)
    (violation : KV.RangeCall → String) (clock : Nat → Int) (store : KV.Store) (size : Int32)
    (seek : String) :
    ∃ r, Ends (fun fuel => searchPages found limit
      (fun n seek => KV.serveRange violation (clock n) store ⟨key, seek, size⟩) fuel 0 seek []) r := by
  have hstart : ¬ limit < ([] : List μ).length := not_lt.mpr hlimit
  -- a first page that fails ends the loop
  have hfails : ∀ {err}, KV.serveRange violation (clock 0) store ⟨key, seek, size⟩ = .error err →
      Ends (fun fuel => searchPages found limit
        (fun n seek => KV.serveRange violation (clock n) store ⟨key, seek, size⟩) fuel 0 seek [])
        (.error err) := by
    intro err herr
    refine ⟨1, fun more hmore => ?_⟩
    obtain ⟨more, rfl⟩ : ∃ m, more = m + 1 := ⟨more - 1, by omega⟩
    dsimp only
    rw [searchPages, if_neg hstart, herr]
  by_cases hsize : 1 ≤ size.toInt ∧ size.toInt ≤ 100
  · have hserve : ∀ n seek, KV.serveRange violation (clock n) store ⟨key, seek, size⟩ =
        KV.Range (clock n) store ⟨key, seek, size.toInt.toNat⟩ :=
      fun n seek => KV.serveRange_accepts violation ⟨key, seek, size⟩ hkey hsize (clock n) store
    obtain ⟨err, herr⟩ | ⟨pages, fuel, hpages⟩ :=
      KV.listPages_ends store key seek clock (by omega : 0 < size.toInt.toNat)
    · exact ⟨_, hfails ((hserve 0 seek).trans (herr (clock 0)))⟩
    · exact ⟨_, fuel, fun more hmore => searchPages_of_listPages hserve (hpages more hmore) hstart⟩
  · have hbad : size.toInt < 1 ∨ 100 < size.toInt := by omega
    exact ⟨_, hfails (KV.serveRange_rejects violation ⟨key, seek, size⟩ hbad (clock 0) store)⟩

end Ends

/-! ## Which limits are safe -/

namespace Searcher

theorem inBounds_getElementsByKeys (s : Searcher) (app env : String) (keys : List String) :
    InBounds (s.getElementsByKeys app env keys) := by
  unfold getElementsByKeys
  cases Coord.getElementsByKeys s.kv app env keys with
  | error fault => exact .fault fault
  | ok elements => exact .ok elements

theorem capacity_eq {limit : Int64} (h : limit.toInt < 2 ^ 63 - 1) :
    (limit + 1).toInt = limit.toInt + 1 := by
  have hlow := limit.le_toInt
  rw [Int64.toInt_add, Int64.toInt_one]
  exact Int.bmod_eq_of_le (by omega) (by omega)

/-- The capacity is negative if the limit is below -1, and if adding one to it overflows. -/
theorem capacity_nonneg_iff (limit : Int64) :
    0 ≤ (limit + 1).toInt ↔ -1 ≤ limit.toInt ∧ limit.toInt < 2 ^ 63 - 1 := by
  have hhigh := limit.toInt_lt
  by_cases hmax : limit.toInt < 2 ^ 63 - 1
  · rw [capacity_eq hmax]
    omega
  · have heq : limit.toInt + 1 = 2 ^ 63 := by omega
    rw [Int64.toInt_add, Int64.toInt_one, heq]
    exact iff_of_false (by decide) (by omega)

variable {μ ρ : Type} {s : Searcher} {limit : Int64}

/-- Of a result: it is in bounds if the limit is, and for the limit -1 it is not. -/
structure Cuts (limit : Int64) (result : Except GoError (List μ × Bool) → Except SearchFault ρ) :
    Prop where
  error : ∀ err, InBounds (result (.error err))
  ended : ∀ matched, InBounds (result (.ok (matched, true)))
  full : 0 ≤ limit.toInt → ∀ matched, limit.toInt < (matched : List μ).length →
    InBounds (result (.ok (matched, false)))
  below : limit.toInt < 0 → ∀ matched, ∃ i, result (.ok (matched, false)) = .error (.bounds i)

theorem search_safe_iff (s : Searcher) (found : Entity → Option μ) {key : String}
    (hkey : 2 ≤ key.length) (seek : String)
    {result : Except GoError (List μ × Bool) → Except SearchFault ρ} (hresult : Cuts limit result) :
    Safe (s.search found key seek limit result) ↔
      0 ≤ limit.toInt ∧ limit.toInt < 2 ^ 63 - 1 := by
  have hcap := capacity_nonneg_iff limit
  cases hmake : makeslice s.maxCap (limit + 1).toInt with
  | error fault =>
    have hends : Ends (s.search found key seek limit result) (.error fault) :=
      ⟨0, fun more _ => by rw [search, hmake]⟩
    unfold makeslice at hmake
    split at hmake
    · next hrefused =>
      cases hmake
      constructor
      · rintro ⟨r, hr, hbounds⟩
        obtain rfl := hends.unique hr
        have hnonneg := hbounds.makeslice _ rfl
        obtain ⟨-, hhigh⟩ := hcap.mp hnonneg
        rw [capacity_eq hhigh] at hrefused
        omega
      · rintro ⟨hlow, hhigh⟩
        refine ⟨_, hends, nofun, fun cap h => ?_⟩
        cases h
        exact hcap.mpr ⟨by omega, hhigh⟩
    · cases hmake
  | ok _ =>
    have hnonneg : 0 ≤ (limit + 1).toInt := by
      unfold makeslice at hmake
      split at hmake
      · cases hmake
      · omega
    obtain ⟨hlow, hhigh⟩ := hcap.mp hnonneg
    have hsearch : ∀ fuel, s.search found key seek limit result fuel =
        (searchPages found limit.toInt (fun n nextSeek => s.range n ⟨key, nextSeek, limit.toInt32⟩)
          fuel 0 seek []).map result := fun fuel => by rw [search, hmake]
    constructor
    · rintro ⟨r, hr, hbounds⟩
      refine ⟨?_, hhigh⟩
      by_contra hneg
      -- the loop is not entered
      obtain ⟨i, hi⟩ := hresult.below (by omega) []
      have hends : Ends (s.search found key seek limit result) (.error (.bounds i)) := by
        refine ⟨1, fun more hmore => ?_⟩
        obtain ⟨more, rfl⟩ : ∃ m, more = m + 1 := ⟨more - 1, by omega⟩
        have hskip : limit.toInt < (([] : List μ).length : Int) := lt_of_not_ge hneg
        rw [hsearch, searchPages, if_pos hskip, Option.map_some, hi]
      obtain rfl := hends.unique hr
      exact hbounds.bounds i rfl
    · rintro ⟨hpos, -⟩
      obtain ⟨r, fuel, hr⟩ := searchPages_ends found hpos hkey s.violation s.clock s.store
        limit.toInt32 seek
      refine ⟨result r, ⟨fuel, fun more hmore => ?_⟩, ?_⟩
      · rw [hsearch]
        exact congrArg (Option.map result) (hr more hmore)
      · rcases r with err | ⟨matched, _ | _⟩
        · exact hresult.error err
        · exact hresult.full hpos matched (searchPages_overfull (hr fuel le_rfl))
        · exact hresult.ended matched

/-! ## The two searches -/

theorem cuts_elements (s : Searcher) (app env : String) (limit : Int64) :
    Cuts limit (s.elementsResult app env limit) where
  error err := .fault _
  ended matched := (inBounds_getElementsByKeys s app env matched).bind fun _ => .ok _
  full hpos matched hlt := by
    obtain ⟨next, -, hnext⟩ := indexAt_ok hpos hlt
    simp only [elementsResult, sliceTo_ok hpos hlt, hnext]
    exact (inBounds_getElementsByKeys s app env _).bind fun _ => .ok _
  below hneg matched := by
    refine ⟨limit.toInt, ?_⟩
    simp only [elementsResult, sliceTo, hneg, true_or, if_true]
    rfl

theorem cuts_apps (limit : Int64) : Cuts limit (appsResult limit) where
  error err := .fault _
  ended matched := .ok _
  full hpos matched hlt := by
    obtain ⟨next, -, hnext⟩ := indexAt_ok hpos hlt
    simp only [appsResult, sliceTo_ok hpos hlt, hnext]
    exact .ok _
  below hneg matched := by
    refine ⟨limit.toInt, ?_⟩
    simp only [appsResult, indexAt, hneg, if_true]
    rfl

/-- A search for something that is not blank is safe exactly for the limits from 0 on to which one
can be added. The KV service refuses what is not between 1 and 100. -/
theorem searches_safe_iff (s : Searcher) (app env seek : String) (limit : Int64) {query : String}
    (hquery : trimSpace query ≠ "") :
    (Safe (s.GetElements app env seek limit query) ∧ Safe (s.GetApps seek limit query) ∧
      ∀ n req, (req.limit.toInt < 1 ∨ 100 < req.limit.toInt) → ∃ err, s.range n req = .error err) ↔
      0 ≤ limit.toInt ∧ limit.toInt < 2 ^ 63 - 1 := by
  have helements : s.GetElements app env seek limit query =
      s.search (s.elementFound (s.toLower (trimSpace query)))
        (Adm.Retention.GenAppElementEnvKey app env) seek limit (s.elementsResult app env limit) :=
    funext fun fuel => if_neg hquery
  have happs : s.GetApps seek limit query = s.search (s.appFound (s.toLower (trimSpace query)))
      "cassem/apps" seek limit (appsResult limit) := funext fun fuel => if_neg hquery
  have hkey : 2 ≤ (Adm.Retention.GenAppElementEnvKey app env).length := by
    have hfront : "cassem/elements/".length = 16 := by decide
    simp [Adm.Retention.GenAppElementEnvKey, joint, String.length_append, hfront]
    omega
  rw [helements, happs, search_safe_iff s _ hkey seek (cuts_elements s app env limit),
    search_safe_iff s _ (by decide) seek (cuts_apps limit)]
  refine ⟨fun h => h.1, fun h => ⟨h, h, fun n req hreq => ?_⟩⟩
  exact ⟨_, KV.serveRange_rejects s.violation req hreq (s.clock n) s.store⟩

/-- A searcher of a store without anything. -/
def nothing : Searcher where
  lower := Char.toLower
  maxCap := 2 ^ 40
  unmarshalApp _ := ⟨"", "", "", ""⟩
  violation _ := "limit"
  clock _ := 0
  store := default
  kv _ := none

theorem searches_safe_ten :
    Safe (nothing.GetElements "shop" "prod" "" 10 " color") ∧
      Safe (nothing.GetApps "" 10 " color") ∧
      ∀ n req, (req.limit.toInt < 1 ∨ 100 < req.limit.toInt) →
        ∃ err, nothing.range n req = .error err :=
  (searches_safe_iff nothing "shop" "prod" "" 10 (by decide)).mpr (by decide)

/-- With the limit -1 the match with the index -1 is looked up, with -2 a capacity of -1 is asked for. -/
theorem searches_not_safe :
    ¬ Safe (nothing.GetApps "" (-1) "color") ∧ ¬ Safe (nothing.GetApps "" (-2) "color") := by
  have hindex : Ends (nothing.GetApps "" (-1) "color") (.error (.bounds (-1))) := by
    refine ⟨1, fun more hmore => ?_⟩
    obtain ⟨more, rfl⟩ : ∃ m, more = m + 1 := ⟨more - 1, by omega⟩
    rfl
  have hcap : Ends (nothing.GetApps "" (-2) "color") (.error (.makeslice (-1))) :=
    ⟨0, fun _ _ => rfl⟩
  constructor
  · rintro ⟨r, hr, hbounds⟩
    obtain rfl := hindex.unique hr
    exact hbounds.bounds _ rfl
  · rintro ⟨r, hr, hbounds⟩
    obtain rfl := hcap.unique hr
    exact absurd (hbounds.makeslice _ rfl) (by decide)

end Searcher

end Cassem.Coord
