import Chronos.Theorems.Registration
import Chronos.Txn.Reading

namespace Chronos

open Txn (TxId Reaches Extends Left Visited)
open AuthService

variable {lib : AuthLibrary} {settings : AuthSettings} {now₀ : Time} {s s' : AccountState}
  {m : AccountDb} {A : AccountDb → Prop} {t : TxId} {email password jti token : String}

section Answers

-- How a login answers, by what it has found and the time it reads.
def loginAnswer (lib : AuthLibrary) (settings : AuthSettings) (password jti : String) (now : Time)
    (found : Except AuthError (Option Account)) : Except AuthError String :=
  match found.map (Option.filter fun a => verifyPassword lib password a.passwordHash) with
  | .error err => .error err
  | .ok none => .error (.authentication "invalid email or password")
  | .ok (some a) => .ok (createAccessToken lib settings now (lib.uuidStr a.user.id) jti)

theorem left_login {v : AccountValue}
    (h : Left A t ((AccountCall.login email password jti).body lib settings) (.pure v)) :
    ∃ m m₁, A m ∧ A m₁ ∧ v = .token (loginAnswer lib settings password jti m₁.clock
      (AccountRepository.getByEmail (normalize lib email) (m.view t))) := by
  obtain ⟨m₀, -, h⟩ := h.of_begin
  obtain ⟨m, hm, h⟩ := h.of_select
  dsimp only [Txn.Prog.pure_bind] at h
  generalize hfound : (AccountRepository.getByEmail (normalize lib email) (m.view t)).map
    (Option.filter fun a => verifyPassword lib password a.passwordHash) = found at h
  cases found with
  | error err =>
      have hv := (Left.of_rollback h).of_pure
      exact ⟨m, m, hm, hm, by rw [loginAnswer, hfound, hv]⟩
  | ok o =>
      cases o with
      | none =>
          have hv := (Left.of_rollback h).of_pure
          exact ⟨m, m, hm, hm, by rw [loginAnswer, hfound, hv]⟩
      | some a =>
          obtain ⟨m₁, hm₁, h⟩ := Left.of_begin h
          have hv := (Left.of_rollback h).of_pure
          exact ⟨m, m₁, hm, hm₁, by rw [loginAnswer, hfound, hv]⟩

-- How a token is answered, by the time that is read and the row of its user.
def meAnswer (lib : AuthLibrary) (settings : AuthSettings) (token : String) (now : Time)
    (row : UserId → Option Account) : Except AuthError User :=
  match (((decodeAccessToken lib settings token now).bind TokenPayload.sub).bind
      lib.uuidParse).bind row with
  | none => .error (.credentials "invalid or expired credentials")
  | some a => .ok a.user

theorem left_me {v : AccountValue}
    (h : Left A t ((AccountCall.me token).body lib settings) (.pure v)) :
    ∃ m m₁, A m ∧ A m₁ ∧ v = .current (meAnswer lib settings token m.clock
      fun id => (m₁.view t).row (.user id)) := by
  obtain ⟨m, hm, h⟩ := Left.of_begin h
  dsimp only [Txn.Prog.pure_bind] at h
  cases hsub : ((decodeAccessToken lib settings token m.clock).bind TokenPayload.sub).bind
    lib.uuidParse with
  | none =>
      rw [hsub] at h
      exact ⟨m, m, hm, hm, by rw [meAnswer, hsub, Left.of_pure h]; rfl⟩
  | some id =>
      rw [hsub] at h
      obtain ⟨m₀, -, h⟩ := Left.of_begin h
      obtain ⟨m₁, hm₁, h⟩ := Left.of_select h
      have h := Left.of_rollback h
      refine ⟨m, m₁, hm, hm₁, ?_⟩
      rw [meAnswer, hsub, Option.bind_some]
      dsimp only [Txn.Prog.pure_bind] at h
      cases hrow : (m₁.view t).row (.user id) with
      | none =>
          rw [hrow] at h
          exact Left.of_pure h
      | some a =>
          rw [hrow] at h
          exact Left.of_pure h

end Answers

section Reading

-- Logins and token checks write nothing.
def AccountCall.reads : AccountCall → Bool
  | .register .. => false
  | _ => true

theorem reads_login (lib : AuthLibrary) (settings : AuthSettings) (email password jti : String) :
    (login lib settings email password jti).All Txn.Stmt.Reads := by
  refine .bind (.stmt .begin) fun _ => .bind (.stmt (.select _)) fun found => ?_
  cases found.map (Option.filter fun a => verifyPassword lib password a.passwordHash) with
  | error err => exact .bind (.stmt .rollback) fun _ => .pure _
  | ok o =>
      cases o with
      | none => exact .bind (.stmt .rollback) fun _ => .pure _
      | some a => exact .bind (.stmt .begin) fun _ => .bind (.stmt .rollback) fun _ => .pure _

theorem reads_getCurrentUser (lib : AuthLibrary) (settings : AuthSettings) (token : String) :
    (getCurrentUser lib settings token).All Txn.Stmt.Reads := by
  refine .bind (.stmt .begin) fun now => ?_
  dsimp only
  cases ((decodeAccessToken lib settings token now).bind TokenPayload.sub).bind lib.uuidParse with
  | none => exact .pure _
  | some userId =>
      have hget : (getUser userId).All Txn.Stmt.Reads :=
        .bind (.stmt .begin) fun _ => .bind (.stmt (.select _)) fun _ =>
          .bind (.stmt .rollback) fun _ => .pure _
      refine .bind hget fun found => ?_
      cases found with
      | none => exact .pure _
      | some user => exact .pure _

theorem reads_body (lib : AuthLibrary) (settings : AuthSettings) (t : TxId) (c : AccountCall)
    (hc : c.reads = true) : ((accountSystem lib settings).body t c).All Txn.Stmt.Reads := by
  cases c with
  | register email password ids => cases hc
  | login email password jti => exact .bind (reads_login ..) fun _ => .pure _
  | me token => exact .bind (reads_getCurrentUser ..) fun _ => .pure _

-- What a reading call finds is what the run has committed until then.
theorem view_visited {c : AccountCall} (hc : c.reads = true)
    (hs : (accountSystem lib settings).Reachable (.empty now₀) s)
    (hm : Visited (accountSystem lib settings) (fun _ _ _ => True) s s' t c m) :
    m.WF ∧ AccountInv m ∧ Extends s.mem.stored (m.view t).row ∧
      Extends (m.view t).row s'.mem.stored := by
  obtain ⟨s₁, hbefore, hafter, hcalls, rfl⟩ := hm
  have hs₁ : (accountSystem lib settings).Reachable (.empty now₀) s₁ := hs.trans hbefore
  have hreading : Txn.Reading (fun c => AccountCall.reads c = true) s₁ :=
    .of_reaches ⟨List.nodup_nil, fun _ _ => rfl⟩ (fun _ => rfl) (reads_body lib settings) hs₁
  have hview : (s₁.mem.view t).row = s₁.mem.stored := hreading.view hcalls hc
  rw [hview]
  exact ⟨(reaches_inv hs₁).wf, (reaches_inv hs₁).inv, (extends_of_reaches (reaches_inv hs) hbefore).2,
    (extends_of_reaches (reaches_inv hs₁) hafter).2⟩

end Reading

-- Once a registration has returned, a login with any spelling of the email is answered by the
-- password.
theorem login_after_registration (lib : AuthLibrary) (settings : AuthSettings) {now₀ : Time}
    {s s' : AccountState} (hs : (accountSystem lib settings).Reachable (.empty now₀) s)
    (h : Reaches (accountSystem lib settings).step (fun _ _ _ => True) s s') {t u : TxId}
    {email password email' password' jti : String} {ids : RegistrationIds} {user : User}
    (ht : s.thread t = some ⟨.register email password ids, some (.pure (.registered (.ok user)))⟩)
    (hu : u ∉ s.mem.opened) (hsame : normalize lib email' = normalize lib email)
    {r : Except AuthError String}
    (hr : s'.thread u = some ⟨.login email' password' jti, some (.pure (.token r))⟩) :
    ∃ passwordHash now, lib.hashpw password ids.salt = some passwordHash ∧
      s.mem.clock ≤ now ∧ now ≤ s'.mem.clock ∧
      r = if verifyPassword lib password' passwordHash then
          .ok (createAccessToken lib settings now (lib.uuidStr user.id) jti)
        else .error (.authentication "invalid email or password") := by
  have hinv := reaches_inv hs
  obtain ⟨reg, hof, rfl, hstored⟩ := hinv.safe t _ _ ht s.mem .refl
  obtain ⟨e, p, hcall, hemail, hhash⟩ := hof
  obtain ⟨rfl, rfl, rfl⟩ := AccountCall.register.inj hcall
  obtain ⟨m, m₁, hm, hm₁, hv⟩ := left_login (h.left hinv.threads hu hr)
  obtain ⟨hwf, haccount, hext, -⟩ := view_visited rfl hs hm
  have hseen : (m.view u).row (.user reg.ids.userId) = some reg.account := hext _ _ hstored
  have hfound : AccountRepository.getByEmail (normalize lib email') (m.view u) =
      .ok (some reg.account) := by
    have hkey : reg.account.user.email = normalize lib email' := hemail.trans hsame.symm
    exact hkey ▸ getByEmail_of_row hwf haccount hseen
  refine ⟨reg.passwordHash, m₁.clock, hhash, hm₁.clock_le.1, hm₁.clock_le.2, ?_⟩
  obtain rfl := AccountValue.token.inj hv
  rw [hfound, loginAnswer]
  simp only [Except.map, Option.filter]
  by_cases hverify : verifyPassword lib password' reg.passwordHash = true
  · rw [if_pos hverify, if_pos (show verifyPassword lib password' reg.account.passwordHash = true
      from hverify)]
  · rw [if_neg hverify, if_neg (show ¬ verifyPassword lib password' reg.account.passwordHash = true
      from hverify)]

-- A token is the work of a login, by then, of a user whose password matched.
theorem issued_of_login (hs : (accountSystem lib settings).Reachable (.empty now₀) s)
    (ht : s.thread t = some ⟨.login email password jti, some (.pure (.token (.ok token)))⟩) :
    ∃ a issued, s.mem.stored (.user a.user.id) = some a ∧
      a.user.email = normalize lib email ∧ verifyPassword lib password a.passwordHash = true ∧
      issued ≤ s.mem.clock ∧
      token = createAccessToken lib settings issued (lib.uuidStr a.user.id) jti := by
  have hempty : ∀ u, (Txn.Pool.init (.empty now₀) : AccountState).thread u ≠ none →
      u ∈ (Txn.Pool.init (.empty now₀) : AccountState).mem.opened := fun u hu => absurd rfl hu
  obtain ⟨m, m₁, hm, hm₁, hv⟩ := left_login (hs.left hempty (List.not_mem_nil) ht)
  obtain ⟨hwf, hinv, -, hext⟩ := view_visited rfl .refl hm
  have htoken := AccountValue.token.inj hv
  rcases getByEmail_cases (t := t) hwf hinv (normalize lib email) with
    ⟨id, a, hrow, hemail, heq⟩ | ⟨-, heq⟩
  · rw [heq, loginAnswer] at htoken
    simp only [Except.map, Option.filter] at htoken
    by_cases hverify : verifyPassword lib password a.passwordHash = true
    · rw [if_pos hverify] at htoken
      have hid : a.user.id = id := hinv.ids id a (.of_seen hrow)
      refine ⟨a, m₁.clock, ?_, hemail, hverify, hm₁.clock_le.2, Except.ok.inj htoken⟩
      rw [hid]
      exact hext _ _ hrow
    · rw [if_neg hverify] at htoken
      cases htoken
  · rw [heq] at htoken
    cases htoken

-- A token that a login has returned stands for its user until it expires, and not from then on.
theorem session_lifetime (hlib : lib.Lawful) {now₀ : Time} {s s' : AccountState}
    (hs : (accountSystem lib settings).Reachable (.empty now₀) s)
    (h : Reaches (accountSystem lib settings).step (fun _ _ _ => True) s s') {t u : TxId}
    {email password jti token : String}
    (ht : s.thread t = some ⟨.login email password jti, some (.pure (.token (.ok token)))⟩)
    (hu : u ∉ s.mem.opened) {r : Except AuthError User}
    (hr : s'.thread u = some ⟨.me token, some (.pure (.current r))⟩) :
    ∃ a issued now, s.mem.stored (.user a.user.id) = some a ∧
      a.user.email = normalize lib email ∧ verifyPassword lib password a.passwordHash = true ∧
      issued ≤ s.mem.clock ∧ s.mem.clock ≤ now ∧ now ≤ s'.mem.clock ∧
      r = if now < ⌊issued + settings.accessTokenTtlMinutes * 60⌋ then .ok a.user
        else .error (.credentials "invalid or expired credentials") := by
  obtain ⟨a, issued, hstored, hemail, hverify, hissued, rfl⟩ := issued_of_login hs ht
  obtain ⟨m, m₁, hm, hm₁, hv⟩ := left_me (h.left (reaches_inv hs).threads hu hr)
  obtain ⟨-, -, hext, -⟩ := view_visited rfl hs hm₁
  refine ⟨a, issued, m.clock, hstored, hemail, hverify, hissued, hm.clock_le.1, hm.clock_le.2, ?_⟩
  have hiat : ((⌊issued⌋ : Int) : Time) ≤ m.clock :=
    (Int.floor_le issued).trans (hissued.trans hm.clock_le.1)
  have hdecode : decodeAccessToken lib settings
      (createAccessToken lib settings issued (lib.uuidStr a.user.id) jti) m.clock =
        if m.clock < ⌊issued + settings.accessTokenTtlMinutes * 60⌋ then
          some (tokenPayload settings issued (lib.uuidStr a.user.id) jti) else none := by
    rw [decodeAccessToken, createAccessToken, hlib.jwtDecode]
    simp only [tokenPayload, hiat, true_and]
  obtain rfl := AccountValue.current.inj hv
  rw [meAnswer, hdecode]
  by_cases hlive : m.clock < ⌊issued + settings.accessTokenTtlMinutes * 60⌋
  · rw [if_pos hlive, if_pos hlive]
    have hrow : (m₁.view u).row (.user a.user.id) = some a := hext _ _ hstored
    simp only [tokenPayload, Option.bind_some, hlib.uuidParse, hrow]
  · rw [if_neg hlive, if_neg hlive]
    rfl

section Unforged

-- A login has returned the token, if it is one that can ever be accepted.
def Presentable (lib : AuthLibrary) (settings : AuthSettings) (token : String) (s : AccountState) :
    Prop :=
  ∀ now payload, decodeAccessToken lib settings token now = some payload →
    ∃ u email password jti,
      s.thread u = some ⟨.login email password jti, some (.pure (.token (.ok token)))⟩

-- Nobody presents a token that he has made up.
def Unforged (lib : AuthLibrary) (settings : AuthSettings) (s : AccountState) (ev : AccountEvent) :
    Prop :=
  ∀ t token, ev = .start t (.me token) → Presentable lib settings token s

theorem presentable_of_unforged
    (h : Reaches (accountSystem lib settings).step (fun s ev _ => Unforged lib settings s ev)
      (.init (.empty now₀)) s) {t : TxId} {token : String} (ht : s.calls t (.me token)) :
    Presentable lib settings token s := by
  have hall : ∀ t token, s.calls t (.me token) → Presentable lib settings token s := by
    refine h.invariant (P := fun s => ∀ t token, s.calls t (.me token) →
      Presentable lib settings token s) ?_ ?_
    · intro t token hcalls
      obtain ⟨rest, ht⟩ := hcalls
      cases ht
    · intro s₁ ev s₂ hs₁ hold hstep hunforged t token hcalls
      have hkept : Presentable lib settings token s₁ → Presentable lib settings token s₂ := by
        intro hpresentable now payload hdecode
        obtain ⟨u, email, password, jti, hu⟩ := hpresentable now payload hdecode
        exact ⟨u, email, password, jti,
          Txn.System.returned (reaches_inv hs₁).threads hstep hu⟩
      obtain ⟨rest, ht⟩ := hcalls
      cases (Txn.System.steps_of_step hstep).thread t with
      | same heq => exact hkept (hold t token ⟨rest, heq ▸ ht⟩)
      | started c hev hfresh hmay hthread =>
          obtain ⟨rfl, -⟩ := Txn.Thread.mk.inj (Option.some.inj (hthread.symm.trans ht))
          exact hkept (hunforged t token hev)
      | advanced c st next r hbefore hafter =>
          obtain ⟨rfl, -⟩ := Txn.Thread.mk.inj (Option.some.inj (hafter.symm.trans ht))
          exact hkept (hold t token ⟨_, hbefore⟩)
      | cutOff c st next hev hbefore hafter =>
          obtain ⟨rfl, -⟩ := Txn.Thread.mk.inj (Option.some.inj (hafter.symm.trans ht))
          exact hkept (hold t token ⟨_, hbefore⟩)
  exact hall t token ht

end Unforged

-- Whoever is taken for a user has a token that has been returned to a login with his email and a
-- password of his, and that has not expired.
theorem current_user_has_logged_in (hlib : lib.Lawful) {now₀ : Time} {s : AccountState}
    (h : Reaches (accountSystem lib settings).step (fun s ev _ => Unforged lib settings s ev)
      (.init (.empty now₀)) s) {t : TxId} {token : String} {user : User}
    (ht : s.thread t = some ⟨.me token, some (.pure (.current (.ok user)))⟩) :
    ∃ u email password jti a, ∃ issued now : Time,
      s.thread u = some ⟨.login email password jti, some (.pure (.token (.ok token)))⟩ ∧
      s.mem.stored (.user user.id) = some a ∧ a.user = user ∧
      user.email = normalize lib email ∧ verifyPassword lib password a.passwordHash = true ∧
      (⌊issued⌋ : Time) ≤ now ∧ now < ⌊issued + settings.accessTokenTtlMinutes * 60⌋ ∧
      now ≤ s.mem.clock := by
  have hs : (accountSystem lib settings).Reachable (.empty now₀) s := h.mono fun _ _ _ _ => trivial
  have hempty : ∀ u, (Txn.Pool.init (.empty now₀) : AccountState).thread u ≠ none →
      u ∈ (Txn.Pool.init (.empty now₀) : AccountState).mem.opened := fun u hu => absurd rfl hu
  obtain ⟨m, m₁, hm, hm₁, hv⟩ := left_me (hs.left hempty List.not_mem_nil ht)
  obtain ⟨-, -, -, hext⟩ := view_visited rfl .refl hm₁
  have hanswer := AccountValue.current.inj hv
  cases hdecode : decodeAccessToken lib settings token m.clock with
  | none =>
      rw [meAnswer, hdecode] at hanswer
      cases hanswer
  | some payload =>
      obtain ⟨u, email, password, jti, hu⟩ :=
        presentable_of_unforged h ⟨_, ht⟩ m.clock payload hdecode
      obtain ⟨a, issued, hstored, hemail, hverify, -, htoken⟩ := issued_of_login hs hu
      have hlive : (⌊issued⌋ : Time) ≤ m.clock ∧
          m.clock < ⌊issued + settings.accessTokenTtlMinutes * 60⌋ := by
        by_contra hdead
        rw [htoken, decodeAccessToken, createAccessToken, hlib.jwtDecode] at hdecode
        simp only [tokenPayload, hdead, if_false] at hdecode
        cases hdecode
      have hpayload : payload = tokenPayload settings issued (lib.uuidStr a.user.id) jti := by
        rw [htoken, decodeAccessToken, createAccessToken, hlib.jwtDecode] at hdecode
        simp only [tokenPayload, hlive, and_self, if_true, Option.some.injEq] at hdecode
        exact hdecode.symm
      rw [meAnswer, hdecode, hpayload] at hanswer
      simp only [tokenPayload, Option.bind_some, hlib.uuidParse] at hanswer
      cases hrow : (m₁.view t).row (.user a.user.id) with
      | none =>
          rw [hrow] at hanswer
          cases hanswer
      | some b =>
          have hb : b = a := Option.some.inj ((hext _ _ hrow).symm.trans hstored)
          rw [hrow, hb] at hanswer
          have huser : user = a.user := Except.ok.inj hanswer
          exact ⟨u, email, password, jti, a, issued, m.clock, hu, huser ▸ hstored, huser.symm,
            huser ▸ hemail, hverify, hlive.1, hlive.2, hm.clock_le.2⟩

section Example

theorem readField_writeField (text rest : List Char) :
    readField (writeField text ++ rest) = some (text, rest) := by
  induction text with
  | nil => rfl
  | cons c text ih =>
      have hstep : writeField (c :: text) ++ rest = '.' :: c :: (writeField text ++ rest) := by
        simp [writeField]
      rw [hstep, readField, ih]
      rfl

theorem readFields_flatMap (fields : List (List Char)) (rest : List Char) :
    readFields fields.length (fields.flatMap writeField ++ rest) = fields := by
  induction fields generalizing rest with
  | nil => rfl
  | cons field fields ih =>
      rw [List.flatMap_cons, List.append_assoc, List.length_cons, readFields, readField_writeField]
      exact congrArg (field :: ·) (ih rest)

theorem readInt_writeInt (n : Int) : readInt (writeInt n) = some n := by
  unfold writeInt
  by_cases hn : n < 0
  · rw [if_pos hn, readInt, Nat.ofDigitChars_toDigits (by decide) (by decide)]
    congr 1
    omega
  · rw [if_neg hn, readInt, Nat.ofDigitChars_toDigits (by decide) (by decide)]
    congr 1
    omega

theorem readText_writeText (text : Option String) : readText (writeText text) = text := by
  cases text with
  | none => rfl
  | some text => simp [writeText, readText]

theorem exampleAuth_lawful : exampleAuth.Lawful where
  uuidParse id := by
    simp [exampleAuth, Nat.ofDigitChars_toDigits]
  checkpw password salt passwordHash h := by
    simp only [exampleAuth] at h ⊢
    by_cases hlong : 72 < password.utf8ByteSize
    · rw [if_pos hlong] at h
      cases h
    · rw [if_neg hlong, Option.some.injEq] at h
      rw [if_neg hlong, ← h, String.toList_ofList, readField_writeField]
      simp
  jwtDecode payload secret algorithm now := by
    have hfields : readFields 6 ((payload.fields secret algorithm).flatMap writeField) =
        payload.fields secret algorithm := by
      have h := readFields_flatMap (payload.fields secret algorithm) []
      rwa [List.append_nil] at h
    simp only [exampleAuth, exampleDecode, String.toList_ofList]
    rw [hfields]
    simp only [TokenPayload.fields, readInt_writeInt, readText_writeText, Option.bind_some,
      true_and, String.ofList_toList]

def loginAnn : AccountCall := .login "ANN@example.org" "staple42" "j"

def annToken : String := createAccessToken exampleAuth exampleSettings (5 / 2) "12" "j"

def ann : User := ⟨12, 10, "ann@example.org", .owner, 0⟩

-- A login returned the token that is presented.
def presents (s : AccountState) : AccountEvent → Bool
  | .start _ (.me token) => (List.range 3).any fun u =>
      accountResultOf s u = some (loginAnn, .token (.ok token))
  | _ => true

theorem unforged_of_presents {ev : AccountEvent} (h : presents s ev = true) :
    Unforged exampleAuth exampleSettings s ev := by
  intro t token hev now payload _
  subst hev
  obtain ⟨u, -, hu⟩ := List.any_eq_true.mp h
  exact ⟨u, _, _, _, thread_of_accountResultOf (of_decide_eq_true hu)⟩

def accountsFrom (s : AccountState) (events : List AccountEvent) : AccountState :=
  (Txn.runAll (accountSystem exampleAuth exampleSettings).step (fun s ev _ => presents s ev) s
    events).getD s

theorem reaches_accountsFrom (s : AccountState) (events : List AccountEvent) :
    Reaches (accountSystem exampleAuth exampleSettings).step
      (fun s ev _ => Unforged exampleAuth exampleSettings s ev) s (accountsFrom s events) :=
  (Reaches.getD_runAll (fun s ev _ => presents s ev) events).mono fun _ _ _ h =>
    unforged_of_presents h

theorem reaches_any {ok : AccountState → AccountEvent → AccountState → Prop}
    (h : Reaches (accountSystem lib settings).step ok s s') :
    Reaches (accountSystem lib settings).step (fun _ _ _ => True) s s' :=
  h.mono fun _ _ _ _ => trivial

-- Ann registers, logs in, and asks who she is before and after her token expires.
def annRegistered : AccountState :=
  accountsFrom (.init (.empty 0)) (.start 1 registerAnn :: List.replicate 6 (.run 1))

def annLoggedIn : AccountState :=
  accountsFrom annRegistered ([.tick (5 / 2), .start 2 loginAnn] ++ List.replicate 4 (.run 2))

def annAsked : AccountState :=
  accountsFrom annLoggedIn (List.flatten [[.start 3 (.me annToken)], List.replicate 4 (.run 3),
    [.tick 62, .start 4 (.me annToken), .run 4]])

theorem annRegistered_result :
    accountResultOf annRegistered 1 = some (registerAnn, .registered (.ok ann)) := by
  decide +kernel

theorem annLoggedIn_result : accountResultOf annLoggedIn 2 = some (loginAnn, .token (.ok annToken)) := by
  decide +kernel

theorem annAsked_results :
    accountResultOf annAsked 3 = some (.me annToken, .current (.ok ann)) ∧
    accountResultOf annAsked 4 = some (.me annToken,
      .current (.error (.credentials "invalid or expired credentials"))) := by
  decide +kernel

theorem login_after_registration_spelled :
    ∃ passwordHash now, exampleAuth.hashpw "staple42" "s" = some passwordHash ∧
      annRegistered.mem.clock ≤ now ∧ now ≤ annLoggedIn.mem.clock ∧
      (.ok annToken : Except AuthError String) =
        if verifyPassword exampleAuth "staple42" passwordHash then
          .ok (createAccessToken exampleAuth exampleSettings now (exampleAuth.uuidStr 12) "j")
        else .error (.authentication "invalid email or password") :=
  login_after_registration exampleAuth exampleSettings (reaches_any (reaches_accountsFrom _ _))
    (reaches_any (reaches_accountsFrom _ _)) (thread_of_accountResultOf annRegistered_result)
    (by decide +kernel) (by decide +kernel) (thread_of_accountResultOf annLoggedIn_result)

-- The token is refused once its minute is over.
theorem session_lifetime_expired : ∃ a issued now,
    annLoggedIn.mem.stored (.user a.user.id) = some a ∧
      a.user.email = normalize exampleAuth "ANN@example.org" ∧
      verifyPassword exampleAuth "staple42" a.passwordHash = true ∧
      issued ≤ annLoggedIn.mem.clock ∧ annLoggedIn.mem.clock ≤ now ∧ now ≤ annAsked.mem.clock ∧
      (.error (.credentials "invalid or expired credentials") : Except AuthError User) =
        if now < ⌊issued + exampleSettings.accessTokenTtlMinutes * 60⌋ then .ok a.user
        else .error (.credentials "invalid or expired credentials") :=
  session_lifetime exampleAuth_lawful
    (reaches_any ((reaches_accountsFrom _ _).trans (reaches_accountsFrom _ _)))
    (reaches_any (reaches_accountsFrom _ _)) (thread_of_accountResultOf annLoggedIn_result)
    (by decide +kernel) (thread_of_accountResultOf annAsked_results.2)

theorem current_user_has_logged_in_ann : ∃ u email password jti a, ∃ issued now : Time,
    annAsked.thread u =
        some ⟨.login email password jti, some (.pure (.token (.ok annToken)))⟩ ∧
      annAsked.mem.stored (.user ann.id) = some a ∧ a.user = ann ∧
      ann.email = normalize exampleAuth email ∧
      verifyPassword exampleAuth password a.passwordHash = true ∧ (⌊issued⌋ : Time) ≤ now ∧
      now < ⌊issued + exampleSettings.accessTokenTtlMinutes * 60⌋ ∧ now ≤ annAsked.mem.clock :=
  current_user_has_logged_in exampleAuth_lawful (((reaches_accountsFrom _ _).trans
    (reaches_accountsFrom _ _)).trans (reaches_accountsFrom _ _))
    (thread_of_accountResultOf annAsked_results.1)

end Example

end Chronos
