import Chronos.Refinement.Registration
import Chronos.Txn.Left
import Mathlib.Algebra.Order.Floor.Ring

namespace Chronos

open Txn (TxId Reaches Extends Left Visited)

variable {lib : AuthLibrary} {settings : AuthSettings} {now₀ : Time} {s s' : AccountState}
  {m m' : AccountDb}

-- The tables hold these registrations, whole, and nothing else.
structure Registry (accounts : List Registration) (m : AccountDb) : Prop where
  stored : ∀ k, m.stored k = (accounts.flatMap Registration.rows).dlookup k
  distinct : (accounts.flatMap Registration.rows).NodupKeys
  emails : (accounts.map Registration.email).Nodup

section Registry

variable {accounts : List Registration} {r : Registration}

theorem Registry.stored_account (h : Registry accounts m) (hr : r ∈ accounts) :
    m.stored (.user r.ids.userId) = some r.account := by
  have hmem : (⟨.user r.ids.userId, r.account⟩ : Sigma AccountRow) ∈
      accounts.flatMap Registration.rows :=
    List.mem_flatMap.mpr ⟨r, hr, by simp [Registration.rows]⟩
  rw [h.stored]
  exact List.mem_dlookup h.distinct hmem

theorem Registry.exists_of_stored (h : Registry accounts m) {id : UserId} {a : Account}
    (ha : m.stored (.user id) = some a) : ∃ r ∈ accounts, r.ids.userId = id ∧ r.account = a := by
  rw [h.stored] at ha
  obtain ⟨r, hr, hmem⟩ := List.mem_flatMap.mp (List.of_mem_dlookup ha)
  refine ⟨r, hr, ?_⟩
  simp only [Registration.rows, List.mem_cons, List.not_mem_nil, or_false, reduceCtorEq,
    Sigma.mk.injEq, false_and, false_or, AccountKey.user.injEq] at hmem
  obtain ⟨rfl, ha⟩ := hmem
  exact ⟨rfl, (eq_of_heq ha).symm⟩

-- One more registration.
theorem Registry.add (h : Registry accounts m) (hr : PublishesAccount r m m') :
    Registry (accounts ++ [r]) m' := by
  have hrows : (accounts ++ [r]).flatMap Registration.rows =
      accounts.flatMap Registration.rows ++ r.rows := by
    simp
  refine ⟨fun k => ?_, ?_, ?_⟩
  · rw [hrows, List.dlookup_append, hr.stored, ← h.stored]
    cases hk : r.rows.dlookup k with
    | none => simp
    | some v => rw [hr.new k v hk, Option.none_or, Option.some_or]
  · rw [hrows, List.NodupKeys, List.keys, List.map_append]
    refine List.nodup_append.mpr ⟨h.distinct, r.rows_nodupKeys, ?_⟩
    rintro k hk _ hk' rfl
    obtain ⟨v, hv⟩ := Option.isSome_iff_exists.mp (List.dlookup_isSome.mpr hk)
    obtain ⟨w, hw⟩ := Option.isSome_iff_exists.mp (List.dlookup_isSome.mpr hk')
    have hnone := hr.new k w hw
    rw [h.stored, hv] at hnone
    cases hnone
  · rw [List.map_append]
    refine List.nodup_append.mpr ⟨h.emails, List.nodup_singleton _, ?_⟩
    rintro email hemail _ hemail' rfl
    obtain ⟨r', hr', hsame⟩ := List.mem_map.mp hemail
    have heq : email = r.email := List.mem_singleton.mp hemail'
    exact hr.free _ _ (h.stored_account hr') (hsame.trans heq)

end Registry

section Runs

variable {ev : AccountEvent}

theorem permitted_account (s : AccountState) (ev : AccountEvent) (s' : AccountState) :
    (accountSpec lib settings).Permitted s ev s' :=
  ⟨trivial, fun _ _ _ => trivial, fun _ _ _ _ _ _ _ => trivial⟩

theorem empty_accountInv : AccountInv (.empty now₀) where
  added _ _ _ hp := by cases hp
  indexed _ _ _ _ hv := by
    rcases hv with hc | ⟨s, hp⟩
    · cases hc
    · cases hp
  references := ⟨fun _ _ _ hc => (by cases hc), fun _ _ _ _ hp => (by cases hp)⟩
  ids _ _ hv := by
    rcases hv with hc | ⟨s, hp⟩
    · cases hc
    · cases hp

theorem empty_pool_inv :
    Txn.Pool.Inv (accountSpec lib settings) (.init (.empty now₀) : AccountState) where
  wf := ⟨List.nodup_nil, fun _ _ => rfl⟩
  inv := empty_accountInv
  assume := trivial
  threads _ ht := absurd rfl ht
  held _ _ _ hp := by cases hp
  safe _ _ _ ht := by cases ht

theorem reaches_inv {ok : AccountState → AccountEvent → AccountState → Prop}
    (h : Reaches (accountSystem lib settings).step ok (.init (.empty now₀)) s) :
    Txn.Pool.Inv (accountSpec lib settings) s :=
  empty_pool_inv.reaches (accountSpec_valid lib settings)
    (h.mono fun s ev s' _ => permitted_account s ev s')

-- One step makes at most one registration, for a call in progress.
theorem registry_step (hinv : Txn.Pool.Inv (accountSpec lib settings) s)
    {accounts : List Registration} (h : Registry accounts s.mem)
    (hstep : (accountSystem lib settings).step s ev = some s') :
    ∃ added, Registry (accounts ++ added) s'.mem ∧
      ∀ r ∈ added, ∃ t c rest, s.thread t = some ⟨c, rest⟩ ∧ r.Of lib c := by
  have hsame : s'.mem.stored = s.mem.stored → ∃ added, Registry (accounts ++ added) s'.mem ∧
      ∀ r ∈ added, ∃ t c rest, s.thread t = some ⟨c, rest⟩ ∧ r.Of lib c := by
    intro heq
    refine ⟨[], ?_, by simp⟩
    rw [List.append_nil]
    exact ⟨fun k => by rw [heq]; exact h.stored k, h.distinct, h.emails⟩
  rcases hinv.guarantee hstep (permitted_account s ev s') with
    henv | ⟨t, -, hroll⟩ | ⟨t, c, p, -, ht, -, hg⟩
  · exact hsame (by unfold Txn.Store.stored; rw [henv.cell])
  · exact hsame (by rw [hroll, Txn.Store.stored_rollback])
  · obtain ⟨-, heq | ⟨r, hof, hr⟩⟩ := hg
    · exact hsame heq
    · refine ⟨[r], h.add hr, fun r' hr' => ?_⟩
      obtain rfl := List.mem_singleton.mp hr'
      exact ⟨t, c, some p, ht, hof⟩

theorem extends_of_reaches (hs : Txn.Pool.Inv (accountSpec lib settings) s)
    {ok : AccountState → AccountEvent → AccountState → Prop}
    (h : Reaches (accountSystem lib settings).step ok s s') :
    Txn.Pool.Inv (accountSpec lib settings) s' ∧ Extends s.mem.stored s'.mem.stored := by
  refine h.invariant (P := fun s' => Txn.Pool.Inv (accountSpec lib settings) s' ∧
    Extends s.mem.stored s'.mem.stored) ⟨hs, fun _ _ hv => hv⟩ ?_
  rintro s₁ ev s₂ - ⟨hinv, hext⟩ hstep -
  have hok : (accountSpec lib settings).Permitted s₁ ev s₂ := permitted_account _ _ _
  refine ⟨hinv.step (accountSpec_valid lib settings) hstep hok, fun k v hv => ?_⟩
  rcases hinv.guarantee hstep hok with henv | ⟨t, -, hroll⟩ | ⟨t, c, p, -, -, -, hg⟩
  · rw [Txn.Store.stored, henv.cell]
    exact hext k v hv
  · rw [hroll, Txn.Store.stored_rollback]
    exact hext k v hv
  · exact extends_of_guar c t _ _ hg k v (hext k v hv)

-- What is made for a call stays made for it.
theorem madeFor_step (hinv : Txn.Pool.Inv (accountSpec lib settings) s) {r : Registration}
    (hstep : (accountSystem lib settings).step s ev = some s')
    (h : ∃ t c rest, s.thread t = some ⟨c, rest⟩ ∧ r.Of lib c) :
    ∃ t c rest, s'.thread t = some ⟨c, rest⟩ ∧ r.Of lib c := by
  obtain ⟨t, c, rest, ht, hof⟩ := h
  obtain ⟨rest', ht'⟩ := (Txn.System.steps_of_step hstep).call hinv.threads ht
  exact ⟨t, c, rest', ht', hof⟩

end Runs

-- However registrations interleave, the tables hold whole registrations, of different emails, each
-- made for a call. Who is told that he is registered is, for good; who is told that the email is
-- taken has left nothing, and the email is that of another.
theorem registrations_atomic (lib : AuthLibrary) (settings : AuthSettings) (now₀ : Time)
    {s : AccountState} (hs : (accountSystem lib settings).Reachable (.empty now₀) s) :
    ∃ accounts, Registry accounts s.mem ∧
      (∀ r ∈ accounts, ∃ t c rest, s.thread t = some ⟨c, rest⟩ ∧ r.Of lib c) ∧
      (∀ t email password ids user,
        s.thread t = some ⟨.register email password ids, some (.pure (.registered (.ok user)))⟩ →
          ∃ r ∈ accounts, r.account.user = user ∧ user.id = ids.userId ∧
            r.email = AuthService.normalize lib email ∧
            lib.hashpw password ids.salt = some r.passwordHash) ∧
      (∀ t email password ids detail, s.thread t = some ⟨.register email password ids,
        some (.pure (.registered (.error (.emailAlreadyRegistered detail))))⟩ →
          ∃ r ∈ accounts, r.email = AuthService.normalize lib email ∧ r.ids.orgId ≠ ids.orgId) ∧
      ∀ s', Reaches (accountSystem lib settings).step (fun _ _ _ => True) s s' →
        ∃ more, Registry (accounts ++ more) s'.mem := by
  have hall : ∃ accounts, Registry accounts s.mem ∧
      ∀ r ∈ accounts, ∃ t c rest, s.thread t = some ⟨c, rest⟩ ∧ r.Of lib c := by
    refine hs.invariant (P := fun s => ∃ accounts, Registry accounts s.mem ∧
      ∀ r ∈ accounts, ∃ t c rest, s.thread t = some ⟨c, rest⟩ ∧ r.Of lib c) ?_ ?_
    · exact ⟨[], ⟨fun _ => rfl, List.nodup_nil, List.nodup_nil⟩, by simp⟩
    · rintro s₁ ev s₂ hs₁ ⟨accounts, hregistry, hmade⟩ hstep -
      have hinv := reaches_inv hs₁
      obtain ⟨added, hregistry', hnew⟩ := registry_step hinv hregistry hstep
      refine ⟨accounts ++ added, hregistry', fun r hr => madeFor_step hinv hstep ?_⟩
      exact (List.mem_append.mp hr).elim (hmade r) (hnew r)
  obtain ⟨accounts, hregistry, hmade⟩ := hall
  have hinv := reaches_inv hs
  refine ⟨accounts, hregistry, hmade, ?_, ?_, ?_⟩
  · intro t email password ids user ht
    obtain ⟨r, hof, rfl, hstored⟩ := hinv.safe t _ _ ht s.mem .refl
    obtain ⟨email', password', hcall, hemail, hhash⟩ := hof
    obtain ⟨rfl, rfl, rfl⟩ := AccountCall.register.inj hcall
    obtain ⟨r', hr', -, haccount⟩ := hregistry.exists_of_stored hstored
    obtain ⟨huser, hpassword⟩ := Account.mk.inj haccount
    have hsameEmail : r'.email = r.email := congrArg User.email huser
    exact ⟨r', hr', huser, rfl, hsameEmail.trans hemail, hhash.trans (congrArg some hpassword.symm)⟩
  · intro t email password ids detail ht
    obtain ⟨id, a, hstored, hemail, horg⟩ := hinv.safe t _ _ ht s.mem .refl
    obtain ⟨r, hr, -, rfl⟩ := hregistry.exists_of_stored hstored
    exact ⟨r, hr, hemail, horg⟩
  · intro s' h
    refine h.invariant (P := fun s' => ∃ more, Registry (accounts ++ more) s'.mem) ?_ ?_
    · exact ⟨[], by rwa [List.append_nil]⟩
    · rintro s₁ ev s₂ hs₁ ⟨more, hmore⟩ hstep -
      obtain ⟨added, hadded, -⟩ := registry_step (extends_of_reaches hinv hs₁).1 hmore hstep
      exact ⟨more ++ added, by rwa [← List.append_assoc]⟩

section Example

-- A text as a field of its own: each character is marked, and so is the end.
def writeField (text : List Char) : List Char := text.flatMap (fun c => ['.', c]) ++ ['|']

def readField : List Char → Option (List Char × List Char)
  | '|' :: rest => some ([], rest)
  | '.' :: c :: rest => (readField rest).map fun r => (c :: r.1, r.2)
  | _ => none

def writeInt (n : Int) : List Char :=
  (if n < 0 then '-' else '+') :: Nat.toDigits 10 n.natAbs

def readInt : List Char → Option Int
  | '+' :: digits => some (Nat.ofDigitChars 10 digits 0)
  | '-' :: digits => some (-Nat.ofDigitChars 10 digits 0)
  | _ => none

def writeText : Option String → List Char
  | none => []
  | some text => '=' :: text.toList

def readText : List Char → Option String
  | [] => none
  | _ :: text => some (String.ofList text)

def TokenPayload.fields (payload : TokenPayload) (secret algorithm : String) : List (List Char) :=
  [writeText payload.sub, writeInt payload.iat, writeInt payload.exp, payload.jti.toList,
    secret.toList, algorithm.toList]

def readFields : Nat → List Char → List (List Char)
  | 0, _ => []
  | n + 1, text => (readField text).elim [] fun r => r.1 :: readFields n r.2

def exampleDecode (token secret algorithm : String) (now : Time) : Option TokenPayload :=
  match readFields 6 token.toList with
  | [sub, iat, exp, jti, key, alg] =>
      (readInt iat).bind fun iat => (readInt exp).bind fun exp =>
        if key = secret.toList ∧ alg = algorithm.toList ∧ iat ≤ now ∧ now < exp then
          some ⟨readText sub, iat, exp, String.ofList jti⟩
        else none
  | _ => none

def exampleAuth : AuthLibrary where
  strip text := String.ofList
    ((text.toList.dropWhile Char.isWhitespace).reverse.dropWhile Char.isWhitespace).reverse
  lower text := String.ofList (text.toList.map Char.toLower)
  uuidStr id := String.ofList (Nat.toDigits 10 id)
  uuidParse text := some (Nat.ofDigitChars 10 text.toList 0)
  hashpw password salt :=
    if 72 < password.utf8ByteSize then none
    else some (String.ofList (writeField salt.toList ++ password.toList))
  checkpw password passwordHash :=
    if 72 < password.utf8ByteSize then none
    else some ((readField passwordHash.toList).any fun r => r.2 = password.toList)
  jwtEncode payload secret algorithm :=
    String.ofList ((payload.fields secret algorithm).flatMap writeField)
  jwtDecode := exampleDecode

def exampleSettings : AuthSettings := ⟨"key", "HS256", 1⟩

def accountsAfter (events : List AccountEvent) : AccountState :=
  (Txn.runAll (accountSystem exampleAuth exampleSettings).step (fun _ _ _ => true)
    (.init (.empty 0)) events).getD (.init (.empty 0))

theorem reachable_accountsAfter (events : List AccountEvent) :
    (accountSystem exampleAuth exampleSettings).Reachable (.empty 0) (accountsAfter events) :=
  (Reaches.getD_runAll (fun _ _ _ => true) events).mono fun _ _ _ _ => trivial

-- What a call has returned.
def accountResultOf (s : AccountState) (t : TxId) : Option (AccountCall × AccountValue) :=
  match s.thread t with
  | some ⟨c, some (.pure v)⟩ => some (c, v)
  | _ => none

theorem thread_of_accountResultOf {t : TxId} {c : AccountCall} {v : AccountValue}
    (h : accountResultOf s t = some (c, v)) : s.thread t = some ⟨c, some (.pure v)⟩ := by
  unfold accountResultOf at h
  split at h
  · rename_i d w ht
    obtain ⟨rfl, rfl⟩ := Prod.mk.inj (Option.some.inj h)
    exact ht
  · cases h

def registerAnn : AccountCall := .register " Ann@Example.org" "staple42" ⟨10, 11, 12, "s"⟩

-- The same address in another spelling.
def registerAgain : AccountCall := .register "ann@example.org" "tr0ub4dor" ⟨20, 21, 22, "t"⟩

-- Both have inserted their projects before the first user is inserted.
def registrationRace : List AccountEvent :=
  List.flatten [[.start 1 registerAnn, .start 2 registerAgain], List.replicate 3 (.run 1),
    List.replicate 3 (.run 2), [.run 1, .run 1], [.run 2, .run 2, .run 1]]

theorem registrationRace_results :
    accountResultOf (accountsAfter registrationRace) 1 = some (registerAnn,
      .registered (.ok ⟨12, 10, "ann@example.org", .owner, 0⟩)) ∧
    accountResultOf (accountsAfter registrationRace) 2 = some (registerAgain,
      .registered (.error (.emailAlreadyRegistered "email already registered"))) := by
  decide +kernel

-- The first to insert the user wins, and the other leaves nothing.
theorem registrations_atomic_race :
    ∃ accounts, Registry accounts (accountsAfter registrationRace).mem ∧
      (∃ r ∈ accounts, r.account.user = ⟨12, 10, "ann@example.org", .owner, 0⟩) ∧
      ∃ r ∈ accounts, r.email = "ann@example.org" ∧ r.ids.orgId ≠ 20 := by
  obtain ⟨accounts, hregistry, -, hok, htaken, -⟩ :=
    registrations_atomic exampleAuth exampleSettings 0 (reachable_accountsAfter registrationRace)
  obtain ⟨h₁, h₂⟩ := registrationRace_results
  obtain ⟨r, hr, huser, -⟩ := hok 1 _ _ _ _ (thread_of_accountResultOf h₁)
  obtain ⟨r', hr', hemail, horg⟩ := htaken 2 _ _ _ _ (thread_of_accountResultOf h₂)
  exact ⟨accounts, hregistry, ⟨r, hr, huser⟩, r', hr', hemail.trans (by decide +kernel), horg⟩

end Example

end Chronos
