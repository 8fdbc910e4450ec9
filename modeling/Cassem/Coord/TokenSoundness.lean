import Cassem.Coord.Token

/-!
# Which tokens are accepted

Runs of the operations on tokens and accounts, one call after the other, with time passing
between them. In each state a string is accepted exactly when an earlier call has issued it,
its token has not been revoked and has not expired, and its account is in order.
-/

namespace Cassem.Coord

open Lib Cassem.Concept
open Adm (UserStatus)
open KV (Bytes)

/-! ## What the calls do -/

section Calls

variable {env : TokenEnv} {users : UserStore} {tokens tokens' : TokenStore}
  {operator : Option String} {policy : Except GoError Unit} {account : String}

theorem validateUser_iff (hfiled : Filed users) :
    env.validateUser users account = .ok () ↔ Usable users account := by
  unfold TokenEnv.validateUser Usable
  constructor
  · intro h
    split at h
    · cases h
    · next u hu =>
      split at h
      · cases h
      · split at h
        · cases h
        · next hstatus => exact ⟨u, getKV_ok hu, not_not.mp hstatus⟩
  · rintro ⟨u, hu, hstatus⟩
    have haccount := hfiled.account_eq hu
    have hkey : GenUserKey account ≠ "" := fun hempty =>
      (hfiled _ u hu).2 (haccount.trans (GenUserKey_eq_empty.mp hempty))
    have hget : env.getKV users (GenUserKey account) = .ok u := by
      unfold AccountEnv.getKV
      rw [if_neg hkey]
      unfold userOf at hu
      rw [hu]
    rw [hget]
    simp [haccount, hstatus]

/-- What `IssueToken` returns, and stores under its own key. -/
structure Issues (env : TokenEnv) (now : Int) (tokens : TokenStore) (issued : IssuedToken)
    (tokens' : TokenStore) : Prop where
  digest : issued.ID = env.tokenDigest issued.Token
  account : env.tokenAccount issued.Token = some issued.Account
  created : issued.CreatedAt = Unix now
  lasting : issued.CreatedAt < issued.ExpiresAt
  fresh : tokens (tokenKey issued.Account issued.ID) = none
  stored : tokens' =
    Function.update tokens (tokenKey issued.Account issued.ID) (some issued.toAccessToken)

theorem IssueToken_ok {name : String} {expiresIn now : Int} {random : Option Secret}
    {issued : IssuedToken} (h : env.IssueToken users tokens operator policy account name expiresIn
      random now = .ok (tokens', issued)) : Issues env now tokens issued tokens' := by
  unfold TokenEnv.IssueToken at h
  dsimp only at h
  generalize (if expiresIn = 0 then tokenLifetimeDefault else expiresIn) = lifetime at h
  split at h
  · cases h
  · next hvalid =>
    obtain ⟨-, -, h⟩ := Fold.bind_eq_ok h
    obtain ⟨-, -, h⟩ := Fold.bind_eq_ok h
    simp only [not_or, Bool.not_eq_false, not_lt] at hvalid
    obtain ⟨haccount, -, -, hlong, -⟩ := hvalid
    cases random with
    | none => cases h
    | some secret =>
      dsimp only at h
      split at h
      · cases h
      · next hfree =>
        cases h
        rw [Bool.not_eq_true, Option.isSome_eq_false_iff, Option.isNone_iff_eq_none] at hfree
        refine ⟨rfl, tokenAccount_rawToken haccount secret, rfl, ?_, hfree, rfl⟩
        show Unix now < Unix (now + lifetime)
        unfold Unix second
        unfold second at hlong
        omega

theorem RevokeToken_ok {id : Bytes} (h : env.RevokeToken users tokens operator policy account id =
    .ok tokens') : tokens' = Function.update tokens (tokenKey account id) none := by
  unfold TokenEnv.RevokeToken at h
  split at h
  · cases h
  · obtain ⟨-, -, h⟩ := Fold.bind_eq_ok h
    cases h
    rfl

theorem decodeToken_ok {token token' : AccessToken} {id : Bytes}
    (h : TokenEnv.decodeToken token account id = .ok token') :
    token' = token ∧ token.Account = account ∧ (id ≠ [] → token.ID = id) := by
  unfold TokenEnv.decodeToken at h
  split at h
  · cases h
  · next hgood =>
    cases h
    simp only [not_or, not_and, not_not] at hgood
    exact ⟨rfl, hgood.2.1, hgood.2.2.1⟩

theorem tokenDigest_ne_nil (raw : Bytes) : env.tokenDigest raw ≠ [] := by
  have hvalid := validTokenID_hexString (env.length_sum256 raw)
  intro hnil
  unfold TokenEnv.tokenDigest at hnil
  rw [hnil] at hvalid
  exact Bool.false_ne_true hvalid

/-- Without targets, what is looked up, checked and compared with the clock. -/
theorem AuthorizeToken_iff (hfiled : Filed users) {currentPolicy : Except GoError Enforcer}
    {now : Int} {raw : Bytes} :
    env.AuthorizeToken users tokens currentPolicy now raw [] = .ok () ↔
      ∃ account token, env.tokenAccount raw = some account ∧
        tokens (tokenKey account (env.tokenDigest raw)) = some token ∧
        TokenEnv.decodeToken token account (env.tokenDigest raw) = .ok token ∧
        Unix now < token.ExpiresAt ∧ Usable users account := by
  unfold TokenEnv.AuthorizeToken
  constructor
  · intro h
    split at h
    · cases h
    · next account haccount =>
      dsimp only at h
      split at h
      · cases h
      · next record hrecord =>
        split at h
        · cases h
        · next token htoken =>
          split at h
          · cases h
          · next hlive =>
            split at h
            · split at h <;> cases h
            · next huser =>
              obtain ⟨rfl, -, -⟩ := decodeToken_ok htoken
              exact ⟨account, token, haccount, hrecord, htoken, not_le.mp hlive,
                (validateUser_iff hfiled).mp huser⟩
  · rintro ⟨account, token, haccount, hrecord, htoken, hlive, huser⟩
    have huser : env.validateUser users account = .ok () := (validateUser_iff hfiled).mpr huser
    simp [haccount, hrecord, htoken, not_le.mpr hlive, huser]

end Calls

/-! ## Runs -/

/-- A time since 1970 in nanoseconds, after its first second. -/
structure Clock where
  ns : Nat
  started : second ≤ ns

def Clock.pass (t : Clock) (ns : Nat) : Clock where
  ns := t.ns + ns
  started := by
    have h := t.started
    omega

def Clock.Unix (t : Clock) : Int := Coord.Unix t.ns

theorem Clock.Unix_pos (t : Clock) : 0 < t.Unix := by
  have h := t.started
  unfold Clock.Unix Coord.Unix
  unfold second at h ⊢
  omega

/-- A token has been issued, and a call to revoke one has succeeded. -/
inductive TokenEvent where
  | issued (token : IssuedToken)
  | revoked (account : String) (id : Bytes)
  deriving DecidableEq

/-- The stores, the clock, and the events, the last first. -/
structure TokenService where
  users : UserStore := fun _ => none
  tokens : TokenStore := fun _ => none
  clock : Clock
  log : List TokenEvent := []

namespace TokenService

/-- The calls, with what the policies and the source of random numbers say. -/
inductive Step where
  | IssueToken (operator : Option String) (policy : Except GoError Unit) (account name : String)
      (expiresIn : Int) (random : Option Secret)
  | RevokeToken (operator : Option String) (policy : Except GoError Unit) (account : String)
      (id : Bytes)
  | AddUser (u : User) (salt : String)
  | DisableUser (hasRole : Except GoError Bool) (account : String)
  | ResetUser (hasRole : Except GoError Bool) (account password salt : String)
  | pass (ns : Nat)

def setUsers (s : TokenService) : Except GoError UserStore → TokenService
  | .ok users => { s with users := users }
  | .error _ => s

variable (env : TokenEnv)

def step (s : TokenService) : Step → Option TokenService
  | .IssueToken operator policy account name expiresIn random =>
      match env.IssueToken s.users s.tokens operator policy account name expiresIn random
        s.clock.ns with
      | .error _ => some s
      | .ok (tokens, token) => some { s with tokens := tokens, log := .issued token :: s.log }
  | .RevokeToken operator policy account id =>
      match env.RevokeToken s.users s.tokens operator policy account id with
      | .error _ => some s
      | .ok tokens => some { s with tokens := tokens, log := .revoked account id :: s.log }
  | .AddUser u salt => some (s.setUsers (env.AddUser s.users u salt))
  | .DisableUser hasRole account => some (s.setUsers (env.DisableUser s.users hasRole account))
  | .ResetUser hasRole account password salt =>
      some (s.setUsers (env.ResetUser s.users hasRole account password salt))
  | .pass ns => some { s with clock := s.clock.pass ns }

/-- The token has been issued and not been revoked since. -/
def Outstanding (log : List TokenEvent) (token : IssuedToken) : Prop :=
  ∃ later earlier, log = later ++ .issued token :: earlier ∧
    .revoked token.Account token.ID ∉ later

/-- The string is that of a token that is outstanding, has not expired, and whose account is in
order. -/
def Good (s : TokenService) (raw : Bytes) : Prop :=
  ∃ token, Outstanding s.log token ∧ token.Token = raw ∧ s.clock.Unix < token.ExpiresAt ∧
    Usable s.users token.Account

/-- The digest of the string is that of no token that has been issued as another string. -/
def Apart (s : TokenService) (raw : Bytes) : Prop :=
  ∀ token, .issued token ∈ s.log → env.sum256 token.Token = env.sum256 raw → token.Token = raw

/-- A string apart from the tokens is accepted exactly when it is a good one. -/
def Sound (s : TokenService) : Prop :=
  ∀ raw currentPolicy, s.Apart env raw →
    (env.AuthorizeToken s.users s.tokens currentPolicy s.clock.ns raw [] = .ok () ↔ s.Good raw)

/-! ## What every step keeps -/

structure Inv (s : TokenService) : Prop where
  filed : Filed s.users
  stored : ∀ key token, s.tokens key = some token ↔
    ∃ issued, Outstanding s.log issued ∧ issued.toAccessToken = token ∧
      key = tokenKey token.Account token.ID
  issued : ∀ issued, .issued issued ∈ s.log → issued.ID = env.tokenDigest issued.Token ∧
    env.tokenAccount issued.Token = some issued.Account ∧ 0 < issued.CreatedAt ∧
      issued.CreatedAt < issued.ExpiresAt

theorem outstanding_issued {log : List TokenEvent} {token issued : IssuedToken} :
    Outstanding (.issued token :: log) issued ↔ issued = token ∨ Outstanding log issued := by
  constructor
  · rintro ⟨later, earlier, hlog, hlater⟩
    cases later with
    | nil =>
      cases hlog
      exact .inl rfl
    | cons e later =>
      cases hlog
      exact .inr ⟨later, earlier, rfl, fun hmem => hlater (List.mem_cons_of_mem _ hmem)⟩
  · rintro (rfl | ⟨later, earlier, rfl, hlater⟩)
    · exact ⟨[], log, rfl, List.not_mem_nil⟩
    · refine ⟨.issued token :: later, earlier, rfl, fun hmem => ?_⟩
      rcases List.mem_cons.mp hmem with hhead | hmem
      · cases hhead
      · exact hlater hmem

theorem outstanding_revoked {log : List TokenEvent} {account : String} {id : Bytes}
    {issued : IssuedToken} : Outstanding (.revoked account id :: log) issued ↔
      Outstanding log issued ∧ ¬ (issued.Account = account ∧ issued.ID = id) := by
  constructor
  · rintro ⟨later, earlier, hlog, hlater⟩
    cases later with
    | nil => cases hlog
    | cons e later =>
      cases hlog
      refine ⟨⟨later, earlier, rfl, fun hmem => hlater (List.mem_cons_of_mem _ hmem)⟩, ?_⟩
      rintro ⟨rfl, rfl⟩
      exact hlater List.mem_cons_self
  · rintro ⟨⟨later, earlier, rfl, hlater⟩, hne⟩
    refine ⟨.revoked account id :: later, earlier, rfl, fun hmem => ?_⟩
    rcases List.mem_cons.mp hmem with hhead | hmem
    · cases hhead
      exact hne ⟨rfl, rfl⟩
    · exact hlater hmem

theorem Outstanding.mem {log : List TokenEvent} {issued : IssuedToken}
    (h : Outstanding log issued) : .issued issued ∈ log := by
  obtain ⟨later, earlier, rfl, -⟩ := h
  exact List.mem_append_right _ List.mem_cons_self

variable {env} {s s' : TokenService}

theorem Inv.setUsers (h : Inv env s) {users : Except GoError UserStore}
    (hfiled : ∀ users', users = .ok users' → Filed users') : Inv env (s.setUsers users) := by
  cases users with
  | error err => exact h
  | ok users => exact ⟨hfiled users rfl, h.stored, h.issued⟩

theorem Inv.issue (h : Inv env s) {tokens : TokenStore} {token : IssuedToken}
    (hissue : Issues env s.clock.ns s.tokens token tokens) :
    Inv env { s with tokens := tokens, log := .issued token :: s.log } where
  filed := h.filed
  stored key stored := by
    show tokens key = some stored ↔ _
    rw [hissue.stored]
    simp only [outstanding_issued]
    by_cases hkey : key = tokenKey token.Account token.ID
    · rw [hkey, Function.update_self, Option.some_inj]
      constructor
      · rintro rfl
        exact ⟨token, .inl rfl, rfl, rfl⟩
      · rintro ⟨issued, rfl | hout, rfl, hsame⟩
        · rfl
        · -- nothing lay under the key
          have hstored := (h.stored _ _).mpr ⟨issued, hout, rfl, rfl⟩
          rw [← hsame, hissue.fresh] at hstored
          cases hstored
    · rw [Function.update_of_ne hkey, h.stored]
      constructor
      · rintro ⟨issued, hout, heq, hsame⟩
        exact ⟨issued, .inr hout, heq, hsame⟩
      · rintro ⟨issued, rfl | hout, rfl, hsame⟩
        · exact absurd hsame hkey
        · exact ⟨issued, hout, rfl, hsame⟩
  issued issued hmem := by
    rcases List.mem_cons.mp hmem with hhead | hmem
    · cases hhead
      exact ⟨hissue.digest, hissue.account, hissue.created ▸ s.clock.Unix_pos, hissue.lasting⟩
    · exact h.issued issued hmem

theorem Inv.revoke (h : Inv env s) (account : String) (id : Bytes) :
    Inv env { s with
      tokens := Function.update s.tokens (tokenKey account id) none
      log := .revoked account id :: s.log } where
  filed := h.filed
  stored key stored := by
    show Function.update s.tokens (tokenKey account id) none key = some stored ↔ _
    simp only [outstanding_revoked]
    by_cases hkey : key = tokenKey account id
    · rw [hkey, Function.update_self]
      refine ⟨fun hnone => (Option.some_ne_none _ hnone.symm).elim, ?_⟩
      rintro ⟨issued, ⟨-, hne⟩, rfl, hsame⟩
      obtain ⟨haccount, hid⟩ := tokenKey_inj hsame
      exact absurd ⟨haccount.symm, hid.symm⟩ hne
    · rw [Function.update_of_ne hkey, h.stored]
      constructor
      · rintro ⟨issued, hout, rfl, hsame⟩
        refine ⟨issued, ⟨hout, ?_⟩, rfl, hsame⟩
        rintro ⟨rfl, rfl⟩
        exact hkey hsame
      · rintro ⟨issued, ⟨hout, -⟩, heq, hsame⟩
        exact ⟨issued, hout, heq, hsame⟩
  issued issued hmem := by
    rcases List.mem_cons.mp hmem with hhead | hmem
    · cases hhead
    · exact h.issued issued hmem

theorem inv_step {l : Step} (h : Inv env s) (hs : step env s l = some s') : Inv env s' := by
  cases l with
  | IssueToken operator policy account name expiresIn random =>
    dsimp only [step] at hs
    split at hs
    · cases hs
      exact h
    · next tokens token htoken =>
      cases hs
      exact h.issue (IssueToken_ok htoken)
  | RevokeToken operator policy account id =>
    dsimp only [step] at hs
    split at hs
    · cases hs
      exact h
    · next tokens htokens =>
      cases hs
      rw [RevokeToken_ok htokens]
      exact h.revoke account id
  | AddUser u salt =>
    cases hs
    refine h.setUsers fun users' husers => ?_
    obtain ⟨hne, -, rfl⟩ := AddUser_ok husers
    exact h.filed.put hne
  | DisableUser hasRole account =>
    cases hs
    refine h.setUsers fun users' husers => ?_
    obtain ⟨u, -, hne, rfl⟩ := DisableUser_ok husers
    exact h.filed.put hne
  | ResetUser hasRole account password salt =>
    cases hs
    refine h.setUsers fun users' husers => ?_
    obtain ⟨u, -, hne, rfl⟩ := ResetUser_ok husers
    exact h.filed.put hne
  | pass ns =>
    cases hs
    exact ⟨h.filed, h.stored, h.issued⟩

/-! ## What is accepted -/

/-- The record of an outstanding token passes its check. -/
theorem decodeToken_issued (h : Inv env s) {issued : IssuedToken} (hmem : .issued issued ∈ s.log) :
    TokenEnv.decodeToken issued.toAccessToken issued.Account (env.tokenDigest issued.Token) =
      .ok issued.toAccessToken := by
  obtain ⟨hid, -, hcreated, hlasting⟩ := h.issued issued hmem
  have hvalid : validTokenID issued.ID = true := by
    rw [hid]
    exact validTokenID_hexString (env.length_sum256 _)
  unfold TokenEnv.decodeToken
  simp [hvalid, ← hid, hcreated, hlasting]

theorem sound_of_inv (h : Inv env s) : Sound env s := by
  intro raw currentPolicy hapart
  rw [AuthorizeToken_iff h.filed]
  constructor
  · rintro ⟨account, token, haccount, hstored, hdecode, hlive, huser⟩
    obtain ⟨-, rfl, hid⟩ := decodeToken_ok hdecode
    obtain ⟨issued, hout, rfl, -⟩ := (h.stored _ _).mp hstored
    have hdigest := (h.issued issued hout.mem).1
    have hsum : env.sum256 issued.Token = env.sum256 raw :=
      hexString_inj (hdigest.symm.trans (hid (tokenDigest_ne_nil raw)))
    exact ⟨issued, hout, hapart issued hout.mem hsum, hlive, huser⟩
  · rintro ⟨issued, hout, rfl, hlive, huser⟩
    obtain ⟨hid, haccount, -, -⟩ := h.issued issued hout.mem
    have hstored := (h.stored _ _).mpr ⟨issued, hout, rfl, rfl⟩
    refine ⟨issued.Account, issued.toAccessToken, haccount, ?_, decodeToken_issued h hout.mem,
      hlive, huser⟩
    rw [← hid]
    exact hstored

/-- In every state of every run the accepted strings are the good ones. -/
theorem sound_run (env : TokenEnv) (clock : Clock) (ls : List Step) :
    Transition.EachState (step env) (Sound env) { clock := clock } ls := by
  have hstart : Inv env { clock := clock } :=
    { filed := fun key u hu => (Option.some_ne_none u hu.symm).elim
      stored := fun key token => by
        refine ⟨fun hnone => (Option.some_ne_none _ hnone.symm).elim, ?_⟩
        rintro ⟨issued, hout, -, -⟩
        exact absurd hout.mem List.not_mem_nil
      issued := fun issued hmem => absurd hmem List.not_mem_nil }
  exact (Transition.eachState_of_eachStep (Inv env) (fun _ _ _ h _ hs => inv_step h hs) hstart
    (Transition.eachStep_true _ ls)).mono fun _ h => sound_of_inv h

end TokenService

end Cassem.Coord
