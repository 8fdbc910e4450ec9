import Cassem.Coord.Account
import Cassem.KV.Storage
import Cassem.Lib.Base64
import Cassem.Lib.Transition

/-!
# Tokens

The token service: what a token looks like, what is stored of it, and when it is accepted. A
record lies under the account and the digest of the whole token, so a token is accepted that was
issued and no other, as long as no other string has its digest.

Strings that come from outside are bytes here; accounts and names are text, which the codecs of
their records ask for. `mail.ParseAddress` and SHA-256 are parameters, and so are the policies.
-/

namespace Cassem.Coord

open Lib Cassem.Concept
open Adm (UserStatus)
open KV (Bytes isSpace)

/-! ## Records -/

def second : Int := 10 ^ 9

def tokenLifetimeDefault : Int := 30 * 24 * 3600 * second

def tokenLifetimeMax : Int := 365 * 24 * 3600 * second

/-- The Unix time of a time in nanoseconds. -/
def Unix (ns : Int) : Int := ns / second

structure AccessToken where
  ID : Bytes
  Account : String
  Name : String
  CreatedAt : Int
  ExpiresAt : Int
  deriving DecidableEq, Repr

structure IssuedToken extends AccessToken where
  Token : Bytes
  deriving DecidableEq, Repr

/-- The KV records below `cassem/acl/tokens`, by their whole keys. -/
abbrev TokenStore := Bytes → Option AccessToken

abbrev Secret := { b : Bytes // b.length = 32 }

abbrev Enforcer := (subject domain object act : String) → Except GoError Bool

structure TokenEnv extends AccountEnv where
  sum256 : Bytes → Bytes
  length_sum256 : ∀ b, (sum256 b).length = 32
  ParseAddress : String → Option String

def tokenPrefix : Bytes := Utf8.encode "cassem_"

def tokenDirectory (account : String) : Bytes :=
  Utf8.encode "cassem/acl/tokens/" ++ Base64.encode (Utf8.encode account)

def tokenKey (account : String) (id : Bytes) : Bytes :=
  tokenDirectory account ++ Utf8.encode "/" ++ id

def hexDigit (n : Nat) : UInt8 := if n < 10 then .ofNat (48 + n) else .ofNat (87 + n)

/-- `hex.EncodeToString`. -/
def hexString (bs : Bytes) : Bytes :=
  bs.flatMap fun b => [hexDigit (b.toNat / 16), hexDigit (b.toNat % 16)]

def isHexDigit (ch : UInt8) : Bool := (48 ≤ ch && ch ≤ 57) || (97 ≤ ch && ch ≤ 102)

def validTokenID (id : Bytes) : Bool := id.length = 64 && id.all isHexDigit

/-- `strings.TrimSpace`. -/
def trimSpace (s : String) : String :=
  String.ofList (((s.toList.dropWhile isSpace).reverse.dropWhile isSpace).reverse)

/-- `strings.Cut` at the first dot. -/
def cutDot (s : Bytes) : Option (Bytes × Bytes) :=
  match s.dropWhile (· ≠ 46) with
  | [] => none
  | _ :: rest => some (s.takeWhile (· ≠ 46), rest)

def rawToken (account : String) (secret : Secret) : Bytes :=
  tokenPrefix ++ Base64.encode (Utf8.encode account) ++ 46 :: Base64.encode secret.1

namespace TokenEnv

variable (env : TokenEnv)

def tokenDigest (raw : Bytes) : Bytes := hexString (env.sum256 raw)

def validTokenAccount (account : String) : Bool :=
  (Utf8.encode account).length ≤ 254 && !account.toList.any (['/', '\\', '\x00'].contains ·) &&
    env.ParseAddress account = some account

def tokenAccount (raw : Bytes) : Option String := do
  guard (tokenPrefix.isPrefixOf raw ∧ raw.length ≤ 512)
  let (encodedAccount, secret) ← cutDot (raw.drop tokenPrefix.length)
  -- what is no text is no mail address
  let account ← (Base64.decode true encodedAccount).bind Utf8.decode
  guard (env.validTokenAccount account)
  let random ← Base64.decode true secret
  guard (random.length = 32)
  return account

section Service

variable (users : UserStore) (tokens : TokenStore)

def validateUser (account : String) : Except GoError Unit :=
  match env.getKV users (GenUserKey account) with
  | .error err => .error err
  | .ok user =>
      if user.Account ≠ account then
        .error (.errorf "invalid token user record: " (.concept Err_INTERNAL))
      else if user.Status ≠ .NORMAL then .error (.concept Err_UNAUTHENTICATED)
      else .ok ()

/-- `authorizeManagement`, of what the policies say about the operator and the account. -/
def authorizeManagement (operator : Option String) (policy : Except GoError Unit) :
    Except GoError Unit :=
  let operator := OperatorFromContext operator
  if env.validTokenAccount operator = false then .error (.concept Err_UNAUTHENTICATED)
  else
    match env.validateUser users operator with
    | .error err =>
        if err.errorsIs (.concept Err_NOT_FOUND) then .error (.concept Err_UNAUTHENTICATED)
        else .error (.errorf "token management operator: " err)
    | .ok () => policy

/-- `IssueToken` at the time `now`, of what the source of random numbers gives. -/
def IssueToken (operator : Option String) (policy : Except GoError Unit) (account name : String)
    (expiresIn : Int) (random : Option Secret) (now : Int) :
    Except GoError (TokenStore × IssuedToken) :=
  let name := trimSpace name
  let expiresIn := if expiresIn = 0 then tokenLifetimeDefault else expiresIn
  if env.validTokenAccount account = false ∨ name = "" ∨ 100 < name.length ∨
      expiresIn < second ∨ tokenLifetimeMax < expiresIn then
    .error (.concept Err_INVALID_ARGUMENT)
  else do
    env.authorizeManagement users operator policy
    (env.validateUser users account).mapError (.errorf "IssueToken.user: ")
    match random with
    | none => .error (.errorf "IssueToken.random: " (.concept Err_INTERNAL))
    | some secret =>
        let raw := rawToken account secret
        let metadata : AccessToken :=
          { ID := env.tokenDigest raw, Account := account, Name := name
            CreatedAt := Unix now, ExpiresAt := Unix (now + expiresIn) }
        let key := tokenKey account metadata.ID
        if (tokens key).isSome = true then
          .error (.errorf "IssueToken.store: " (.concept Err_ALREADY_EXISTS))
        else .ok (Function.update tokens key (some metadata), ⟨metadata, raw⟩)

def decodeToken (token : AccessToken) (account : String) (id : Bytes) :
    Except GoError AccessToken :=
  if validTokenID token.ID = false ∨ token.Account ≠ account ∨ (id ≠ [] ∧ token.ID ≠ id) ∨
      token.CreatedAt ≤ 0 ∨ token.ExpiresAt ≤ token.CreatedAt then
    .error (.errorf "invalid token record: " (.concept Err_INTERNAL))
  else .ok token

def RevokeToken (operator : Option String) (policy : Except GoError Unit) (account : String)
    (id : Bytes) : Except GoError TokenStore :=
  if env.validTokenAccount account = false ∨ validTokenID id = false then
    .error (.concept Err_INVALID_ARGUMENT)
  else do
    env.authorizeManagement users operator policy
    -- the key of no record is no error
    return Function.update tokens (tokenKey account id) none

def authorizeTarget (enforcer : Enforcer) (account : String) (target : String × String) :
    Except GoError Unit :=
  let (app, env) := target
  if app = "" ∨ env = "" ∨ (app ++ env).toList.any (['/', '\\', '*'].contains ·) = true then
    .error (.concept Err_INVALID_ARGUMENT)
  else
    match enforcer account (app ++ "/" ++ env) "elem" "r" with
    | .error _ => .error (.errorf "AuthorizeToken.policy: " (.concept Err_INTERNAL))
    | .ok false => .error (.concept Err_PERMISSION_DENIED)
    | .ok true => .ok ()

/-- `AuthorizeToken` at the time `now`; the policies are asked for targets only. -/
def AuthorizeToken (currentPolicy : Except GoError Enforcer) (now : Int) (raw : Bytes)
    (targets : List (String × String)) : Except GoError Unit :=
  match env.tokenAccount raw with
  | none => .error (.concept Err_UNAUTHENTICATED)
  | some account =>
      let id := env.tokenDigest raw
      match tokens (tokenKey account id) with
      | none => .error (.concept Err_UNAUTHENTICATED)
      | some record =>
          match decodeToken record account id with
          | .error err => .error err
          | .ok token =>
              if Unix now ≥ token.ExpiresAt then .error (.concept Err_UNAUTHENTICATED)
              else
                match env.validateUser users account with
                | .error err =>
                    if err.errorsIs (.concept Err_NOT_FOUND) then
                      .error (.concept Err_UNAUTHENTICATED)
                    else .error (.errorf "AuthorizeToken.user: " err)
                | .ok () =>
                    if targets = [] then .ok ()
                    else do
                      let enforcer ← currentPolicy
                      targets.forM (authorizeTarget enforcer account)

end Service

end TokenEnv

/-! ## Digests and keys -/

theorem hexDigit_spec : ∀ n < 16, isHexDigit (hexDigit n) = true := by decide

theorem hexDigit_inj : ∀ m < 16, ∀ n < 16, hexDigit m = hexDigit n → m = n := by decide

theorem hexString_cons (b : UInt8) (bs : Bytes) :
    hexString (b :: bs) = hexDigit (b.toNat / 16) :: hexDigit (b.toNat % 16) :: hexString bs := rfl

theorem hexString_inj {bs cs : Bytes} (h : hexString bs = hexString cs) : bs = cs := by
  induction bs generalizing cs with
  | nil =>
    cases cs with
    | nil => rfl
    | cons c cs => cases h
  | cons b bs ih =>
    cases cs with
    | nil => cases h
    | cons c cs =>
      rw [hexString_cons, hexString_cons, List.cons.injEq, List.cons.injEq] at h
      obtain ⟨hhigh, hlow, hrest⟩ := h
      have hb := b.toNat_lt
      have hc := c.toNat_lt
      have hdiv := hexDigit_inj _ (by omega) _ (by omega) hhigh
      have hmod := hexDigit_inj _ (by omega) _ (by omega) hlow
      have hnat : b.toNat = c.toNat := by omega
      rw [UInt8.toNat_inj.mp hnat, ih hrest]

theorem validTokenID_hexString {bs : Bytes} (h : bs.length = 32) :
    validTokenID (hexString bs) = true := by
  have hlength : ∀ cs : Bytes, (hexString cs).length = 2 * cs.length := by
    intro cs
    induction cs with
    | nil => rfl
    | cons c cs ih =>
      rw [hexString_cons, List.length_cons, List.length_cons, List.length_cons, ih]
      omega
  have hdigits : ∀ ch ∈ hexString bs, isHexDigit ch = true := by
    intro ch hch
    obtain ⟨b, -, hb⟩ := List.mem_flatMap.mp hch
    have hlt := b.toNat_lt
    obtain rfl | rfl | hnil := by simpa using hb
    · exact hexDigit_spec _ (by omega)
    · exact hexDigit_spec _ (by omega)
  unfold validTokenID
  rw [hlength, h, List.all_eq_true.mpr hdigits]
  rfl

theorem tokenKey_inj {account account' : String} {id id' : Bytes}
    (h : tokenKey account id = tokenKey account' id') : account = account' ∧ id = id' := by
  have hslash : ∀ s : String, (47 : UInt8) ∉ Base64.encode (Utf8.encode s) := fun s hmem =>
    (Base64.encode_spec hmem).2.2 rfl
  have hsep : Utf8.encode "/" = [47] := by decide +kernel
  unfold tokenKey tokenDirectory at h
  rw [hsep, List.append_assoc, List.append_assoc, List.append_assoc, List.append_assoc] at h
  obtain ⟨haccount, hid⟩ := cons_inj_of_notMem (hslash account) (hslash account')
    (List.append_cancel_left h)
  exact ⟨Utf8.encode_inj.mp (Base64.encode_inj.mp haccount), hid⟩

theorem cutDot_append {s : Bytes} (h : (46 : UInt8) ∉ s) (rest : Bytes) :
    cutDot (s ++ 46 :: rest) = some (s, rest) := by
  have hkept : ∀ ch ∈ s, decide (ch ≠ 46) = true := fun ch hch =>
    decide_eq_true fun heq => h (heq ▸ hch)
  unfold cutDot
  rw [List.dropWhile_append_of_pos hkept, List.takeWhile_append_of_pos hkept]
  simp

/-- A token names its account. -/
theorem tokenAccount_rawToken {env : TokenEnv} {account : String}
    (h : env.validTokenAccount account = true) (secret : Secret) :
    env.tokenAccount (rawToken account secret) = some account := by
  have hdot : (46 : UInt8) ∉ Base64.encode (Utf8.encode account) := fun hmem =>
    (Base64.encode_spec hmem).2.1 rfl
  have hshort : (Utf8.encode account).length ≤ 254 := by
    unfold TokenEnv.validTokenAccount at h
    simp only [Bool.and_eq_true, decide_eq_true_eq] at h
    exact h.1.1
  have hprefix : tokenPrefix.length = 7 := by decide +kernel
  have hlength : (rawToken account secret).length ≤ 512 := by
    unfold rawToken
    simp only [List.length_append, List.length_cons, Base64.length_encode, secret.2, hprefix]
    omega
  have hstart : tokenPrefix.isPrefixOf (rawToken account secret) = true := by
    rw [rawToken, List.append_assoc, List.isPrefixOf_iff_prefix]
    exact List.prefix_append _ _
  have hcut : cutDot ((rawToken account secret).drop tokenPrefix.length) =
      some (Base64.encode (Utf8.encode account), Base64.encode secret.1) := by
    rw [rawToken, List.append_assoc, List.drop_left]
    exact cutDot_append hdot _
  unfold TokenEnv.tokenAccount
  simp [hstart, hlength, hcut, Base64.decode_encode, Utf8.decode_encode, h, secret.2]

end Cassem.Coord
