import Cassem.Adm.Guard
import Cassem.Coord.Token
import Cassem.Lib.Transition

/-!
# Which sessions are accepted

Runs of logins and of the operations on accounts, with time passing between them. A session is
not stored: what a request carries is compared with the account as it is now, and what ties the
two is the salt.
-/

namespace Cassem.Adm

open Lib Cassem.Concept Cassem.Coord
open KV (Bytes)

/-! ## Login -/

/-- What the admin app is set up with, and the Unix time of the next day at the same hour. -/
structure AdminEnv extends AccountEnv where
  codec : SessionCodec
  sessionSecret : String
  AddDate : (ns : Int) → Int

/-- `UserLoginHTTP` of a request that has been bound: the session and its header. -/
def UserLoginHTTP (env : AdminEnv) (users : UserStore) (GetUserRoles : Except GoError (List String))
    (account password : String) (now : Int) : Except GoError (Session × Bytes) :=
  match env.GetUser users account with
  | .error err =>
      match err.fromError with
      | some ex =>
          if ex.code = .notFound then .error (.concept ⟨.notFound, "login failed"⟩) else .error err
      | none => .error err
  | .ok u =>
      if u.Status ≠ .NORMAL then .error (.concept Err_PERMISSION_DENIED)
      else if env.WithSalt password u.Salt ≠ u.HashedPassword then
        .error (.concept ⟨.notFound, "login failed"⟩)
      else
        match GetUserRoles with
        | .error err => .error err
        | .ok _ =>
            let sess : Session := ⟨u.Account, u.Salt, env.AddDate now⟩
            match env.codec.EncodeSession sess env.sessionSecret with
            | none => .error (.concept Err_INVALID_ARGUMENT)
            | some header => .ok (sess, header)

theorem UserLoginHTTP_ok {env : AdminEnv} {users : UserStore}
    {roles : Except GoError (List String)} {account password : String} {now : Int}
    {sess : Session} {header : Bytes}
    (h : UserLoginHTTP env users roles account password now = .ok (sess, header)) :
    env.codec.EncodeSession sess env.sessionSecret = some header ∧
      ∃ u, userOf users account = some u ∧ u.Account = sess.Account ∧ u.Salt = sess.Salt := by
  unfold UserLoginHTTP at h
  split at h
  · split at h
    · split at h <;> cases h
    · cases h
  · next u hu =>
    split at h
    · cases h
    · split at h
      · cases h
      · split at h
        · cases h
        · dsimp only at h
          split at h
          · cases h
          · next hheader =>
            cases h
            exact ⟨hheader, u, getKV_ok (Fold.mapError_ok hu), rfl, rfl⟩

/-! ## Runs -/

inductive SessionEvent where
  | added (account salt : String)
  | reset (account salt : String)
  | login (sess : Session)
  deriving DecidableEq

/-- The accounts, the time, and the events, the last first. -/
structure SessionService where
  users : UserStore := fun _ => none
  now : Int
  log : List SessionEvent := []

namespace SessionService

inductive Step where
  | AddUser (u : Coord.User) (salt : String)
  | UserLoginHTTP (GetUserRoles : Except GoError (List String)) (account password : String)
  | DisableUser (hasRole : Except GoError Bool) (account : String)
  | ResetUser (hasRole : Except GoError Bool) (account password salt : String)
  | pass (ns : Nat)

variable (env : AdminEnv)

def step (s : SessionService) : Step → Option SessionService
  | .AddUser u salt =>
      match env.AddUser s.users u salt with
      | .error _ => some s
      | .ok users => some { s with users := users, log := .added u.Account salt :: s.log }
  | .UserLoginHTTP roles account password =>
      match UserLoginHTTP env s.users roles account password s.now with
      | .error _ => some s
      | .ok (sess, _) => some { s with log := .login sess :: s.log }
  | .DisableUser hasRole account =>
      match env.DisableUser s.users hasRole account with
      | .error _ => some s
      | .ok users => some { s with users := users }
  | .ResetUser hasRole account password salt =>
      match env.ResetUser s.users hasRole account password salt with
      | .error _ => some s
      | .ok users => some { s with users := users, log := .reset account salt :: s.log }
  | .pass ns => some { s with now := s.now + ns }

/-- The salt has been drawn for the account. -/
def Drawn (log : List SessionEvent) (account salt : String) : Prop :=
  .added account salt ∈ log ∨ .reset account salt ∈ log

instance (log : List SessionEvent) (account salt : String) : Decidable (Drawn log account salt) :=
  inferInstanceAs (Decidable (_ ∨ _))

/-- No reset draws a salt that the account has had before. -/
def FreshSalt (s : SessionService) (l : Step) (_ : SessionService) : Prop :=
  match l with
  | .ResetUser _ account _ salt => ¬ Drawn s.log account salt
  | _ => True

instance (s : SessionService) (l : Step) (s' : SessionService) : Decidable (FreshSalt s l s') := by
  unfold FreshSalt
  split <;> infer_instance

/-- The guard of the API as the state has it. -/
def auth (s : SessionService) (Enforce : (subject domain object act : String) → Except GoError Bool) :
    AdminAuth where
  codec := env.codec
  sessionSecret := env.sessionSecret
  GetUser account := (env.GetUser s.users account).toOption.map fun u => ⟨u.Status, u.Salt⟩
  Enforce := Enforce
  now := Unix s.now

/-- The account has logged in, and has not been reset since. -/
def LoggedIn (log : List SessionEvent) (sess : Session) : Prop :=
  ∃ later earlier, log = later ++ .login sess :: earlier ∧
    ∀ salt, .reset sess.Account salt ∉ later

/-- The header has the payload and the signature of the session. -/
def Carries (header : Bytes) (sess : Session) : Prop :=
  SessionCodec.parts header = some (env.codec.marshal sess,
    env.codec.sessionSignature (env.codec.marshal sess) env.sessionSecret)

/-- A payload that the header has with its signature is one that a login has signed. -/
def Unforged (s : SessionService) (header : Bytes) : Prop :=
  ∀ payload, SessionCodec.parts header =
    some (payload, env.codec.sessionSignature payload env.sessionSecret) →
    ∃ sess, .login sess ∈ s.log ∧ payload = env.codec.marshal sess

/-- The request carries a session of the account that is still good. -/
def Good (s : SessionService) (r : Request) (account : String) : Prop :=
  ∃ sess, LoggedIn s.log sess ∧ sess.Account = account ∧ Carries env (Utf8.encode r.session) sess ∧
    Unix s.now < sess.ExpiredAt ∧ Usable s.users account

/-- A request that is not forged is authenticated exactly when its session is good. -/
def Valid (s : SessionService) : Prop :=
  ∀ r account Enforce, s.Unforged env (Utf8.encode r.session) →
    ((∃ sess, authorizeRequest (s.auth env Enforce).toAuth r = some sess ∧
      sess.Account = account) ↔ s.Good env r account)

/-! ## What every step keeps -/

/-- The account of a login still exists, and has the salt of the session until it is reset. -/
def Tied (users : UserStore) (later : List SessionEvent) (sess : Session) : Prop :=
  ∃ u, userOf users sess.Account = some u ∧
    (u.Salt = sess.Salt ↔ ∀ salt, .reset sess.Account salt ∉ later)

structure Inv (s : SessionService) : Prop where
  filed : Filed s.users
  drawn : ∀ account u, userOf s.users account = some u → Drawn s.log account u.Salt
  login : ∀ later sess earlier, s.log = later ++ .login sess :: earlier →
    env.sessionSecret ≠ "" ∧ Drawn s.log sess.Account sess.Salt ∧ Tied s.users later sess

variable {env} {s s' : SessionService}

theorem Drawn.cons {log : List SessionEvent} {account salt : String} (h : Drawn log account salt)
    (e : SessionEvent) : Drawn (e :: log) account salt :=
  h.imp (List.mem_cons_of_mem e) (List.mem_cons_of_mem e)

/-- What is written for another account, or has the salt of the old record, ties as before. -/
theorem Tied.put {users : UserStore} {later : List SessionEvent} {sess : Session}
    (h : Tied users later sess) {u : Coord.User} (hne : u.Account ≠ "")
    (hsalt : sess.Account = u.Account → ∃ old, userOf users sess.Account = some old ∧
      u.Salt = old.Salt) : Tied (put users u) later sess := by
  obtain ⟨old, hold, htied⟩ := h
  unfold Tied
  rw [userOf_put hne]
  by_cases heq : sess.Account = u.Account
  · obtain ⟨old', hold', hsame⟩ := hsalt heq
    cases hold.symm.trans hold'
    rw [if_pos heq]
    exact ⟨u, rfl, hsame ▸ htied⟩
  · rw [if_neg heq]
    exact ⟨old, hold, htied⟩

theorem Tied.cons {users : UserStore} {later : List SessionEvent} {sess : Session}
    (h : Tied users later sess) {e : SessionEvent} (he : ∀ salt, e ≠ .reset sess.Account salt) :
    Tied users (e :: later) sess := by
  obtain ⟨u, hu, htied⟩ := h
  refine ⟨u, hu, htied.trans (forall_congr' fun salt => not_congr ?_)⟩
  rw [List.mem_cons]
  exact (or_iff_right fun heq => he salt heq.symm).symm

/-- A write that leaves the salts of the accounts there are as they were. -/
theorem Inv.put (h : Inv env s) {u : Coord.User} (hne : u.Account ≠ "")
    (hold : ∀ old, userOf s.users u.Account = some old → u.Salt = old.Salt) {log : List SessionEvent}
    (hlog : log = s.log ∧ (userOf s.users u.Account).isSome = true ∨
      log = .added u.Account u.Salt :: s.log) :
    Inv env { s with users := Coord.put s.users u, log := log } := by
  have hdrawn : ∀ account salt, Drawn s.log account salt → Drawn log account salt := by
    rcases hlog with ⟨rfl, -⟩ | rfl
    · exact fun _ _ hd => hd
    · exact fun _ _ hd => hd.cons _
  refine ⟨h.filed.put hne, fun account u' hu' => ?_, fun later sess earlier heq => ?_⟩
  · have hu' : userOf (Coord.put s.users u) account = some u' := hu'
    rw [userOf_put hne] at hu'
    split at hu'
    · next heq =>
      cases hu'
      rcases hlog with ⟨rfl, hsome⟩ | rfl
      · obtain ⟨old, ho⟩ := Option.isSome_iff_exists.mp hsome
        rw [hold old ho, heq]
        exact h.drawn _ old ho
      · rw [heq]
        exact .inl List.mem_cons_self
    · exact hdrawn _ _ (h.drawn account u' hu')
  · have hput : ∀ {later}, Tied s.users later sess → Tied (Coord.put s.users u) later sess := by
      intro later htied
      refine htied.put hne fun heq => ?_
      obtain ⟨old, ho, -⟩ := htied
      exact ⟨old, ho, hold old (heq ▸ ho)⟩
    rcases hlog with ⟨rfl, -⟩ | rfl
    · obtain ⟨hsecret, hd, htied⟩ := h.login later sess earlier heq
      exact ⟨hsecret, hd, hput htied⟩
    · rcases List.cons_eq_append_iff.mp heq with ⟨-, hhead⟩ | ⟨later, rfl, hrest⟩
      · cases hhead
      · obtain ⟨hsecret, hd, htied⟩ := h.login later sess earlier hrest
        exact ⟨hsecret, hd.cons _, (hput htied).cons fun salt heq => by cases heq⟩

theorem Inv.reset (h : Inv env s) {u : Coord.User} (hne : u.Account ≠ "")
    (hfresh : ¬ Drawn s.log u.Account u.Salt) :
    Inv env { s with
      users := Coord.put s.users u, log := .reset u.Account u.Salt :: s.log } := by
  refine ⟨h.filed.put hne, fun account u' hu' => ?_, fun later sess earlier heq => ?_⟩
  · have hu' : userOf (Coord.put s.users u) account = some u' := hu'
    rw [userOf_put hne] at hu'
    split at hu'
    · next heq =>
      cases hu'
      rw [heq]
      exact .inr List.mem_cons_self
    · exact (h.drawn account u' hu').cons _
  · rcases List.cons_eq_append_iff.mp heq with ⟨-, hhead⟩ | ⟨later, rfl, hrest⟩
    · cases hhead
    · obtain ⟨hsecret, hd, htied⟩ := h.login later sess earlier hrest
      refine ⟨hsecret, hd.cons _, ?_⟩
      by_cases haccount : sess.Account = u.Account
      · -- the session has a salt that was drawn before
        have hsalt : u.Salt ≠ sess.Salt := fun hsame => hfresh (hsame ▸ haccount ▸ hd)
        refine ⟨u, by rw [userOf_put hne, if_pos haccount], fun hsame => absurd hsame hsalt,
          fun hnone => ?_⟩
        exact absurd (haccount ▸ List.mem_cons_self) (hnone u.Salt)
      · refine (htied.put hne fun heq => absurd heq haccount).cons fun salt heq => ?_
        injection heq with hsame
        exact haccount hsame.symm

theorem Inv.logIn (h : Inv env s) {sess : Session} (hsecret : env.sessionSecret ≠ "")
    {u : Coord.User} (hu : userOf s.users sess.Account = some u) (hsalt : u.Salt = sess.Salt) :
    Inv env { s with log := .login sess :: s.log } := by
  refine ⟨h.filed, fun account u' hu' => (h.drawn account u' hu').cons _,
    fun later sess' earlier heq => ?_⟩
  rcases List.cons_eq_append_iff.mp heq with ⟨rfl, hhead⟩ | ⟨later, rfl, hrest⟩
  · cases hhead
    refine ⟨hsecret, (hsalt ▸ h.drawn _ u hu).cons _, u, hu, ?_⟩
    exact ⟨fun _ _ => List.not_mem_nil, fun _ => hsalt⟩
  · obtain ⟨hsecret, hd, htied⟩ := h.login later sess' earlier hrest
    exact ⟨hsecret, hd.cons _, htied.cons fun salt heq => by cases heq⟩

theorem inv_step {l : Step} (h : Inv env s) (hP : FreshSalt s l s') (hs : step env s l = some s') :
    Inv env s' := by
  cases l with
  | AddUser u salt =>
    dsimp only [step] at hs
    split at hs
    · cases hs
      exact h
    · next users husers =>
      cases hs
      obtain ⟨hne, hnone, rfl⟩ := AddUser_ok husers
      refine h.put (u := { u with
        Salt := salt, HashedPassword := env.WithSalt u.HashedPassword salt }) hne
          (fun old hold => ?_) (.inr rfl)
      rw [hnone] at hold
      cases hold
  | UserLoginHTTP roles account password =>
    dsimp only [step] at hs
    split at hs
    · cases hs
      exact h
    · next sess header hlogin =>
      cases hs
      obtain ⟨hheader, u, hu, haccount, hsalt⟩ := UserLoginHTTP_ok hlogin
      have hsecret := (SessionCodec.verifies_encode hheader).secret
      refine h.logIn hsecret (u := u) ?_ hsalt
      rw [← haccount, h.filed.account_eq hu]
      exact hu
  | DisableUser hasRole account =>
    dsimp only [step] at hs
    split at hs
    · cases hs
      exact h
    · next users husers =>
      cases hs
      obtain ⟨u, hu, hne, rfl⟩ := DisableUser_ok husers
      have haccount := h.filed.account_eq hu
      subst haccount
      refine h.put (u := { u with Status := .FORBIDDEN }) hne (fun old hold => ?_)
        (.inl ⟨rfl, Option.isSome_iff_exists.mpr ⟨u, hu⟩⟩)
      cases hu.symm.trans hold
      rfl
  | ResetUser hasRole account password salt =>
    dsimp only [step] at hs
    split at hs
    · cases hs
      exact h
    · next users husers =>
      cases hs
      obtain ⟨u, hu, hne, rfl⟩ := ResetUser_ok husers
      have haccount := h.filed.account_eq hu
      subst haccount
      exact h.reset hne hP
  | pass ns =>
    cases hs
    exact ⟨h.filed, h.drawn, h.login⟩

/-! ## What is authenticated -/

theorem GetUser_eq (h : Inv env s) {account : String} {user : User}
    {Enforce : (subject domain object act : String) → Except GoError Bool} :
    (s.auth env Enforce).GetUser account = some user ↔
      ∃ u, userOf s.users account = some u ∧ user = ⟨u.Status, u.Salt⟩ := by
  constructor
  · intro hget
    obtain ⟨u, hu, rfl⟩ := Option.map_eq_some_iff.mp hget
    have hok : env.GetUser s.users account = .ok u := by
      cases hcall : env.GetUser s.users account with
      | error err =>
        rw [hcall] at hu
        cases hu
      | ok u' =>
        rw [hcall] at hu
        cases hu
        rfl
    exact ⟨u, getKV_ok (Fold.mapError_ok hok), rfl⟩
  · rintro ⟨u, hu, rfl⟩
    have hkey : GenUserKey account ≠ "" := fun hempty =>
      (h.filed _ u hu).2 ((h.filed.account_eq hu).trans (GenUserKey_eq_empty.mp hempty))
    have hok : env.GetUser s.users account = .ok u := by
      unfold userOf at hu
      unfold AccountEnv.GetUser AccountEnv.getKV
      rw [if_neg hkey, hu]
      rfl
    simp [auth, hok, Except.toOption]

theorem valid_of_inv (h : Inv env s) : Valid env s := by
  intro r account Enforce hunforged
  constructor
  · rintro ⟨sess, hsess, rfl⟩
    obtain ⟨user, ⟨-, payload, hparts, hpayload⟩, hlive, huser, hnormal, hsalt⟩ :=
      authorizeRequest_iff.mp hsess
    obtain ⟨sess', hmem, rfl⟩ := hunforged payload hparts
    have hsame : sess' = sess := Option.some.inj ((env.codec.unmarshal_marshal sess').symm.trans
      hpayload)
    subst hsame
    obtain ⟨u, hu, rfl⟩ := (GetUser_eq h).mp huser
    obtain ⟨earlier, later, hlog⟩ := List.append_of_mem hmem
    obtain ⟨-, -, u', hu', htied⟩ := h.login earlier sess' later hlog
    cases hu.symm.trans hu'
    exact ⟨sess', ⟨earlier, later, hlog, htied.mp hsalt⟩, rfl, hparts, hlive, u, hu, hnormal⟩
  · rintro ⟨sess, ⟨later, earlier, hlog, hnone⟩, rfl, hcarries, hlive, u, hu, hnormal⟩
    obtain ⟨hsecret, -, u', hu', htied⟩ := h.login later sess earlier hlog
    cases hu.symm.trans hu'
    have hverifies : env.codec.Verifies env.sessionSecret (Utf8.encode r.session) sess :=
      ⟨hsecret, _, hcarries, env.codec.unmarshal_marshal sess⟩
    have huser : (s.auth env Enforce).GetUser sess.Account = some ⟨u.Status, u.Salt⟩ :=
      (GetUser_eq h).mpr ⟨u, hu, rfl⟩
    exact ⟨sess, authorizeRequest_iff.mpr
      ⟨_, hverifies, hlive, huser, hnormal, htied.mpr hnone⟩, rfl⟩

/-- In every state of every run whose resets draw fresh salts, the requests that are
authenticated are those with a good session. -/
theorem valid_run (env : AdminEnv) {now : Int} {ls : List Step}
    (hfresh : Transition.EachStep (step env) FreshSalt { now := now } ls) :
    Transition.EachState (step env) (Valid env) { now := now } ls := by
  have hstart : Inv env { now := now } :=
    { filed := fun key u hu => (Option.some_ne_none u hu.symm).elim
      drawn := fun account u hu => (Option.some_ne_none u hu.symm).elim
      login := fun later sess earlier heq => absurd (congrArg List.length heq) (by simp) }
  exact (Transition.eachState_of_eachStep (P := FreshSalt) (Inv env) (fun _ _ _ h hP hs => inv_step h hP hs) hstart
    hfresh).mono fun _ h => valid_of_inv h

/-! ## A run with a reset between two logins -/

def sessionJSON (salt : String) : Bytes :=
  Utf8.encode ("\x7b\"Account\":\"ann@x.io\",\"Salt\":\"" ++ salt ++
    "\",\"ExpiredAt\":1700086400\x7d")

/-- The hashes and the signatures that the run needs, under the secret `s3cret`. -/
def annEnv : AdminEnv where
  WithSalt password salt :=
    if password = "secret1" ∧ salt = "aaaaaaaa" then
      "0d7704ea7896ef0d5559223db90ec337a111da8f6e012eff5837f6c7e0c5506a"
    else if password = "secret2" ∧ salt = "bbbbbbbb" then
      "dcaedc9daa5449f72fe1dd18b086df71b47dcd794acdbccc086f348a8974022c"
    else ""
  violation := .concept Err_INVALID_ARGUMENT
  codec := JSONText.codec fun _ message =>
    if message = sessionJSON "aaaaaaaa" then
      [122, 87, 177, 164, 144, 64, 221, 125, 136, 216, 224, 156, 196, 103, 218, 29, 213, 160, 124,
        54, 138, 185, 163, 57, 252, 226, 170, 198, 213, 88, 74, 9]
    else if message = sessionJSON "bbbbbbbb" then
      [175, 105, 189, 209, 116, 122, 180, 60, 248, 195, 194, 118, 51, 133, 204, 34, 61, 200, 165,
        200, 209, 216, 123, 85, 53, 197, 176, 36, 135, 182, 166, 244]
    else []
  sessionSecret := "s3cret"
  AddDate ns := Unix ns + 24 * 3600

def annRun : List Step :=
  [.AddUser ⟨"ann@x.io", "Ann", "secret1", "", .NORMAL⟩ "aaaaaaaa",
   .UserLoginHTTP (.ok []) "ann@x.io" "secret1",
   .ResetUser (.ok false) "ann@x.io" "secret2" "bbbbbbbb",
   .UserLoginHTTP (.ok []) "ann@x.io" "secret2",
   .pass 1]

theorem annRun_valid : Transition.EachState (step annEnv) (Valid annEnv)
    { now := 1700000000 * second } annRun :=
  valid_run annEnv (by decide +kernel)

/-- Both logins of the run succeed. -/
example : (Transition.run (step annEnv) { now := 1700000000 * second } annRun).map (·.log) =
    some [.login ⟨"ann@x.io", "bbbbbbbb", 1700086400⟩, .reset "ann@x.io" "bbbbbbbb",
      .login ⟨"ann@x.io", "aaaaaaaa", 1700086400⟩, .added "ann@x.io" "aaaaaaaa"] := by
  decide +kernel

end SessionService

end Cassem.Adm
