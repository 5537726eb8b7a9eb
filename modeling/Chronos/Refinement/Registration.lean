import Chronos.Services.Auth
import Chronos.Txn.Index

namespace Chronos

open Txn (TxId stmt Stable Triple Upward Extends)

-- One registration: its organization, its project and its user.
structure Registration where
  ids : RegistrationIds
  email : String
  passwordHash : String
  createdAt : Time

namespace Registration

open AuthService

def account (r : Registration) : Account := newAccount r.ids r.email r.passwordHash r.createdAt

def rows (r : Registration) : List (Sigma AccountRow) :=
  [⟨.org r.ids.orgId, newOrg r.ids r.email r.createdAt⟩,
    ⟨.project r.ids.projectId, newProject r.ids r.createdAt⟩, ⟨.user r.ids.userId, r.account⟩]

-- The registration a call is made for.
def Of (lib : AuthLibrary) (r : Registration) (c : AccountCall) : Prop :=
  ∃ email password, c = .register email password r.ids ∧ r.email = normalize lib email ∧
    lib.hashpw password r.ids.salt = some r.passwordHash

end Registration

-- The foreign keys on organizations.
def accountParent : ∀ k, AccountRow k → Option AccountKey
  | .project _, p => some (.org p.orgId)
  | .user _, a => some (.org a.user.orgId)
  | .org _, _ => none

-- What holds of the tables at any time.
structure AccountInv (m : AccountDb) : Prop where
  added : m.Added
  indexed : m.Indexed accountClash
  references : m.References accountParent
  ids : ∀ id a, m.Version (.user id) a → a.user.id = id

-- All of a registration is published at once, where its email is nobody's.
structure PublishesAccount (r : Registration) (m m' : AccountDb) : Prop where
  stored : ∀ k, m'.stored k = (r.rows.dlookup k).or (m.stored k)
  new : ∀ k v, r.rows.dlookup k = some v → m.stored k = none
  free : ∀ id a, m.stored (.user id) = some a → a.user.email ≠ r.email

section Spec

variable (lib : AuthLibrary) (settings : AuthSettings)

def Registered (email : String) (orgId : OrgId) (rows : ∀ k, Option (AccountRow k)) : Prop :=
  ∃ id a, rows (.user id) = some a ∧ a.user.email = email ∧ a.user.orgId ≠ orgId

-- What there is to an answer.
def AccountCall.Answered : AccountCall → AccountValue → (∀ k, Option (AccountRow k)) → Prop
  | .register email password ids, .registered (.ok user), rows =>
      ∃ r : Registration, r.Of lib (.register email password ids) ∧ r.account.user = user ∧
        rows (.user ids.userId) = some r.account
  | .register email _ ids, .registered (.error (.emailAlreadyRegistered _)), rows =>
      Registered (AuthService.normalize lib email) ids.orgId rows
  | .login email password jti, .token (.ok token), rows =>
      ∃ id a now, rows (.user id) = some a ∧ a.user.email = AuthService.normalize lib email ∧
        verifyPassword lib password a.passwordHash = true ∧
        token = createAccessToken lib settings now (lib.uuidStr a.user.id) jti
  | .login _ _ _, .token (.error .multipleResultsFound), _ => False
  | .me token, .current (.ok user), rows =>
      ∃ now id a, ((decodeAccessToken lib settings token now).bind TokenPayload.sub).bind
        lib.uuidParse = some id ∧ rows (.user id) = some a ∧ a.user = user
  | _, _, _ => True

def accountSpec : Txn.Spec AccountKey AccountRow Time AccountCall AccountValue where
  assume _ := True
  admits _ _ := True
  permits _ _ _ _ := True
  inv := AccountInv
  guar c _ m m' := AccountInv m' ∧
    (m'.stored = m.stored ∨ ∃ r : Registration, r.Of lib c ∧ PublishesAccount r m m')
  post c _ v m := c.Answered lib settings v m.stored

end Spec

variable {lib : AuthLibrary} {settings : AuthSettings} {c : AccountCall} {t : TxId}
  {m m' : AccountDb}

theorem accountSpec_sound : (accountSpec lib settings).Sound :=
  fun _ _ _ _ _ _ _ _ _ _ hg _ => hg.1

theorem extends_of_guar (c : AccountCall) (t : TxId) (m m' : AccountDb)
    (hg : (accountSpec lib settings).guar c t m m') : Extends m.stored m'.stored := by
  intro k v hv
  obtain ⟨-, hsame | ⟨r, -, hr⟩⟩ := hg
  · exact hsame ▸ hv
  · rw [hr.stored k]
    cases hk : r.rows.dlookup k with
    | none => exact hv
    | some w =>
        rw [hr.new k w hk] at hv
        cases hv

theorem stable_stored {P : (∀ k, Option (AccountRow k)) → Prop} (hP : Upward P) :
    Stable (accountSpec lib settings) t fun m => P m.stored :=
  .stored_of_extends extends_of_guar hP

theorem upward_registered (email : String) (orgId : OrgId) : Upward (Registered email orgId) :=
  .exists fun id => Upward.row (V := AccountRow) (.user id) fun a =>
    a.user.email = email ∧ a.user.orgId ≠ orgId

theorem upward_answered (v : AccountValue) : Upward (c.Answered lib settings v) := by
  have hrow : ∀ id (D : Account → Prop),
      Upward fun rows : ∀ k, Option (AccountRow k) => ∃ a, rows (.user id) = some a ∧ D a :=
    fun id D => Upward.row (V := AccountRow) (.user id) D
  have hconst : ∀ p : Prop, Upward fun _ : ∀ k, Option (AccountRow k) => p := Upward.const
  cases c with
  | register email password ids =>
      cases v with
      | registered r =>
          cases r with
          | ok user =>
              intro rows rows' hext h
              obtain ⟨r, hof, huser, hstored⟩ := h
              exact ⟨r, hof, huser, hext _ _ hstored⟩
          | error err =>
              cases err with
              | emailAlreadyRegistered detail => exact upward_registered _ _
              | _ => exact hconst True
      | _ => exact hconst True
  | login email password jti =>
      cases v with
      | token r =>
          cases r with
          | ok token =>
              intro rows rows' hext h
              obtain ⟨id, a, now, hstored, hrest⟩ := h
              exact ⟨id, a, now, hext _ _ hstored, hrest⟩
          | error err =>
              cases err with
              | multipleResultsFound => exact hconst False
              | _ => exact hconst True
      | _ => exact hconst True
  | me token =>
      cases v with
      | current r =>
          cases r with
          | ok user =>
              intro rows rows' hext h
              obtain ⟨now, id, a, hsub, hstored, huser⟩ := h
              exact ⟨now, id, a, hsub, hext _ _ hstored, huser⟩
          | error err => exact hconst True
      | _ => exact hconst True

section Invariant

theorem AccountInv.commit (h : AccountInv m) : AccountInv (m.commit t) where
  added := h.added.commit
  indexed := h.indexed.commit
  references := h.references.commit
  ids id a hv := h.ids id a hv.of_commit

theorem AccountInv.rollback (h : AccountInv m) : AccountInv (m.rollback t) where
  added := h.added.rollback
  indexed := h.indexed.rollback
  references := h.references.rollback
  ids id a hv := h.ids id a hv.of_rollback

theorem AccountInv.insert (h : AccountInv m) (hwf : m.WF) {k : AccountKey} {row : AccountRow k}
    (hk : k ∉ m.keys) (hclash : Txn.insertClashes t (accountClash k row) m = false)
    (hwaits : Txn.insertWaits (accountClash k row) m = false)
    (hparent : ∀ p, accountParent k row = some p → ((m.cell p).seen t).isSome = true)
    (hid : ∀ id a, (⟨k, row⟩ : Sigma AccountRow) = ⟨.user id, a⟩ → a.user.id = id) :
    AccountInv (m.insert t k row) where
  added := by
    have hnone : (m.cell k).committed = none := by
      rw [hwf.absent k hk]
      rfl
    exact h.added.own row hnone
  indexed := h.indexed.insert hwf h.added row accountClash_symm hk hclash hwaits
  references := h.references.insert hwf row hk hparent
  ids id a hv := by
    by_cases hne : AccountKey.user id = k
    · subst hne
      obtain rfl := hv.eq_of_insert hwf hk
      exact hid id _ rfl
    · exact h.ids id a (hv.of_insert hne)

theorem AccountInv.of_cell (h : AccountInv m) (hcell : m'.cell = m.cell) : AccountInv m' := by
  obtain ⟨keys, cell, clock, opened⟩ := m
  obtain ⟨keys', cell', clock', opened'⟩ := m'
  obtain rfl : cell' = cell := hcell
  exact ⟨h.added, h.indexed, ⟨h.references.committed, h.references.pending⟩, h.ids⟩

-- The versions that a transaction sees of a table, it holds or they are committed.
theorem seen_of_holds {rows : List (Sigma AccountRow)} (h : m.Holds t rows) {k : AccountKey}
    {v : AccountRow k} (hv : (m.cell k).seen t = some v) :
    rows.dlookup k = some v ∨ rows.dlookup k = none ∧ m.stored k = some v := by
  have hmine : m.mine t k = rows.dlookup k := congrFun h k
  cases hk : rows.dlookup k with
  | none =>
      rw [Txn.seen_of_not_mine (hmine.trans hk)] at hv
      exact .inr ⟨rfl, hv⟩
  | some w =>
      rw [Txn.seen_of_mine (hmine.trans hk)] at hv
      exact .inl hv

theorem holds_seen {rows : List (Sigma AccountRow)} (h : m.Holds t rows) {k : AccountKey}
    {v : AccountRow k} (hv : rows.dlookup k = some v) : (m.cell k).seen t = some v :=
  Txn.seen_of_mine ((congrFun h k).trans hv)

end Invariant

section Statements

variable {P : AccountDb → Prop} {β : Type}

-- Statements that leave the store as it is.
theorem triple_quiet {st : Txn.Stmt AccountKey AccountRow Time β} {Q : β → AccountDb → Prop}
    (hst : Stable (accountSpec lib settings) t P)
    (hstQ : ∀ r, Stable (accountSpec lib settings) t (Q r)) (hskip : ∀ r, st.skipped ≠ some r)
    (hrun : ∀ m r m', m.WF → AccountInv m → P m → Txn.exec t st m = some (r, m') →
      AccountInv m' ∧ m'.stored = m.stored ∧ Q r m') :
    Triple (accountSpec lib settings) c t P (stmt st) Q := by
  refine .stmt hst hstQ (fun m r m' hwf hinv _ _ hP he _ => ?_)
    (fun _ r _ _ _ _ _ hs => absurd hs (hskip r)) accountSpec_sound
  obtain ⟨hinv', hsame, hQ⟩ := hrun m r m' hwf hinv hP he
  exact ⟨⟨hinv', .inl hsame⟩, hQ⟩

theorem triple_account_begin (hst : Stable (accountSpec lib settings) t P) :
    Triple (accountSpec lib settings) c t P (stmt .begin) fun _ => P := by
  refine triple_quiet hst (fun _ => hst) (by simp [Txn.Stmt.skipped]) fun m r m' _ hinv hP he => ?_
  simp only [Txn.exec, Option.some.injEq, Prod.mk.injEq] at he
  obtain ⟨-, rfl⟩ := he
  exact ⟨hinv, rfl, hP⟩

-- What a transaction that has written nothing finds is committed.
theorem triple_account_select {query : AccountView → β} {D : β → (∀ k, Option (AccountRow k)) → Prop}
    (hD : ∀ r, Upward (D r))
    (h : ∀ m, m.WF → AccountInv m → (m.view t).row = m.stored → D (query (m.view t)) m.stored) :
    Triple (accountSpec lib settings) c t (fun m => m.Holds t []) (stmt (.select query)) fun r m =>
      m.Holds t [] ∧ D r m.stored := by
  refine triple_quiet (.holds_rows _) (fun r => (Stable.holds_rows _).and (stable_stored (hD r)))
    (by simp [Txn.Stmt.skipped]) fun m r m' hwf hinv hP he => ?_
  simp only [Txn.exec, Option.some.injEq, Prod.mk.injEq] at he
  obtain ⟨rfl, rfl⟩ := he
  exact ⟨hinv, rfl, hP, h m hwf hinv hP.view_nil⟩

theorem triple_account_rollback {D : (∀ k, Option (AccountRow k)) → Prop} (hD : Upward D) :
    Triple (accountSpec lib settings) c t (fun m => D m.stored) (stmt .rollback) fun _ m =>
      D m.stored := by
  refine triple_quiet (stable_stored hD) (fun _ => stable_stored hD) (by simp [Txn.Stmt.skipped])
    fun m r m' _ hinv h he => ?_
  simp only [Txn.exec, Option.some.injEq, Prod.mk.injEq] at he
  obtain ⟨-, rfl⟩ := he
  exact ⟨hinv.rollback, m.stored_rollback t, by rwa [m.stored_rollback t]⟩

theorem triple_return {D : (∀ k, Option (AccountRow k)) → Prop} (hD : Upward D) {a : β}
    {Q : β → (∀ k, Option (AccountRow k)) → Prop} (h : ∀ rows, D rows → Q a rows) :
    Triple (accountSpec lib settings) c t (fun m => D m.stored) (do stmt .rollback; return a)
      fun r m => Q r m.stored :=
  .bind accountSpec_sound (triple_account_rollback hD) fun _ => .pure (stable_stored hD) fun _ hd => h _ hd

-- A row that is refused clashes with one that the transaction sees.
def Clashes (t : TxId) (k : AccountKey) (row : AccountRow k) (m : AccountDb) : Prop :=
  ∃ k' v', m.Version k' v' ∧ (m.cell k').seen t = some v' ∧ accountClash k row k' v' = true

theorem triple_insertRow {rows : List (Sigma AccountRow)} {k : AccountKey} {row : AccountRow k}
    {D : (∀ k, Option (AccountRow k)) → Prop} (hD : Upward D)
    (hparent : ∀ p, accountParent k row = some p → (rows.dlookup p).isSome = true)
    (hid : ∀ id a, (⟨k, row⟩ : Sigma AccountRow) = ⟨.user id, a⟩ → a.user.id = id)
    (hclash : ∀ m, m.WF → AccountInv m → m.Holds t rows → Clashes t k row m → D m.stored) :
    Triple (accountSpec lib settings) c t (fun m => m.Holds t rows) (AuthService.insertRow k row)
      fun ok m => (ok = true → m.Holds t (rows ++ [⟨k, row⟩])) ∧ (ok = false → D m.stored) := by
  refine .stmt (.holds_rows _) (fun ok => (Stable.holds_rows _).imp.and (stable_stored hD).imp)
    (fun m r m' hwf hinv _ _ hP he _ => ?_) (fun _ r _ _ _ _ _ hs => by cases hs) accountSpec_sound
  obtain ⟨hk, ⟨rfl, rfl, hc⟩ | ⟨rfl, rfl, hc, hw⟩⟩ := Txn.exec_insert he
  · refine ⟨⟨hinv, .inl rfl⟩, fun hok => absurd hok Bool.false_ne_true, fun _ => ?_⟩
    obtain ⟨k', -, hany⟩ := List.any_eq_true.mp hc
    obtain ⟨v', hseen, hcl⟩ := (Option.any_eq_true _ _).mp hany
    exact hclash _ hwf hinv hP ⟨k', v', .of_seen hseen, hseen, hcl⟩
  · have hseen : ∀ p, accountParent k row = some p → ((m.cell p).seen t).isSome = true := by
      intro p hp
      obtain ⟨w, hlookup⟩ := Option.isSome_iff_exists.mp (hparent p hp)
      rw [holds_seen hP hlookup]
      rfl
    refine ⟨⟨hinv.insert hwf hk hc hw hseen hid, .inl (m.stored_own t k row)⟩,
      fun _ => hP.insert hwf row hk, fun hok => absurd hok.symm Bool.false_ne_true⟩

end Statements

section Queries

theorem filterMap_eq_singleton {α β : Type} {f : α → Option β} {l : List α} (hnodup : l.Nodup)
    {i : α} {b : β} (hi : i ∈ l) (hb : f i = some b) (hother : ∀ j ∈ l, j ≠ i → f j = none) :
    l.filterMap f = [b] := by
  induction l with
  | nil => cases hi
  | cons j l ih =>
      obtain ⟨hj, hnodup⟩ := List.nodup_cons.mp hnodup
      by_cases heq : j = i
      · subst heq
        have hrest : l.filterMap f = [] :=
          List.filterMap_eq_nil_iff.mpr fun x hx =>
            hother x (List.mem_cons_of_mem j hx) fun hxj => hj (hxj ▸ hx)
        rw [List.filterMap_cons_some hb, hrest]
      · have hmem : i ∈ l := (List.mem_cons.mp hi).resolve_left (Ne.symm heq)
        rw [List.filterMap_cons_none (hother j List.mem_cons_self heq)]
        exact ih hnodup hmem fun x hx => hother x (List.mem_cons_of_mem j hx)

theorem mem_userIds {keys : List AccountKey} {id : UserId} :
    id ∈ keys.filterMap AccountKey.userId ↔ AccountKey.user id ∈ keys := by
  rw [List.mem_filterMap]
  constructor
  · rintro ⟨k, hk, hid⟩
    cases k with
    | user id' =>
        obtain rfl := Option.some.inj hid
        exact hk
    | _ => cases hid
  · exact fun h => ⟨_, h, rfl⟩

theorem nodup_userIds {keys : List AccountKey} (h : keys.Nodup) :
    (keys.filterMap AccountKey.userId).Nodup := by
  refine h.filterMap fun k k' id hk hk' => ?_
  cases k with
  | user i =>
      cases k' with
      | user j =>
          obtain rfl := Option.some.inj hk
          obtain rfl := Option.some.inj hk'
          rfl
      | _ => cases hk'
  | _ => cases hk

-- The index on the email makes the answer unique.
theorem getByEmail_cases (hwf : m.WF) (hinv : AccountInv m) (email : String) :
    (∃ id a, (m.view t).row (.user id) = some a ∧ a.user.email = email ∧
      AccountRepository.getByEmail email (m.view t) = .ok (some a)) ∨
    ((∀ id a, (m.view t).row (.user id) = some a → a.user.email ≠ email) ∧
      AccountRepository.getByEmail email (m.view t) = .ok none) := by
  have hlist : (accounts (m.view t)).filter (fun a => a.user.email = email) =
      (m.keys.filterMap AccountKey.userId).filterMap fun id =>
        ((m.view t).row (.user id)).filter fun a => a.user.email = email := by
    rw [accounts, List.filter_filterMap]
    rfl
  rw [AccountRepository.getByEmail, hlist]
  by_cases hfound : ∃ id a, (m.view t).row (.user id) = some a ∧ a.user.email = email
  · obtain ⟨id, a, hrow, hemail⟩ := hfound
    refine .inl ⟨id, a, hrow, hemail, ?_⟩
    have hseen : (m.cell (.user id)).seen t = some a := hrow
    have hkey : AccountKey.user id ∈ m.keys := hwf.mem_of_seen (by rw [hseen]; simp)
    have hmem : id ∈ m.keys.filterMap AccountKey.userId := mem_userIds.mpr hkey
    rw [filterMap_eq_singleton (b := a) (nodup_userIds hwf.nodup) hmem]
    · rfl
    · rw [hrow]
      simp [Option.filter, hemail]
    · intro j _ hne
      refine Option.filter_eq_none_iff.mpr fun b hb hbemail => hne ?_
      have hsameEmail : b.user.email = a.user.email := (of_decide_eq_true hbemail).trans hemail.symm
      have hclash : accountClash (.user j) b (.user id) a = true := decide_eq_true hsameEmail
      have hsame := hinv.indexed (.user j) b (.user id) a (.of_seen hb) (.of_seen hseen) hclash
      exact AccountKey.user.inj hsame
  · have hnone : ∀ id a, (m.view t).row (.user id) = some a → a.user.email ≠ email := by
      intro id a hrow hemail
      exact hfound ⟨id, a, hrow, hemail⟩
    refine .inr ⟨hnone, ?_⟩
    rw [List.filterMap_eq_nil_iff.mpr]
    · rfl
    · intro id _
      refine Option.filter_eq_none_iff.mpr fun a ha hemail => ?_
      exact hnone id a ha (of_decide_eq_true hemail)

-- Whoever sees a user with the email finds him.
theorem getByEmail_of_row (hwf : m.WF) (hinv : AccountInv m) {id : UserId} {a : Account}
    (ha : (m.view t).row (.user id) = some a) :
    AccountRepository.getByEmail a.user.email (m.view t) = .ok (some a) := by
  rcases getByEmail_cases (t := t) hwf hinv a.user.email with ⟨id', b, hb, hemail, heq⟩ | ⟨hnone, -⟩
  · have hclash : accountClash (.user id') b (.user id) a = true := decide_eq_true hemail
    have hsame := hinv.indexed (.user id') b (.user id) a (.of_seen hb) (.of_seen ha) hclash
    obtain rfl := AccountKey.user.inj hsame
    rw [heq, Option.some.inj (hb.symm.trans ha)]
  · exact absurd rfl (hnone id a ha)

end Queries

section Calls

open AuthService

variable {email password jti token : String} {ids : RegistrationIds} {now : Time}
  {normalized passwordHash : String}

theorem upward_true : Upward fun _ : ∀ k, Option (AccountRow k) => True := .const True

-- The organization of the transaction is not committed, and no other transaction refers to it.
theorem not_clashes_project {org : Organization} (hinv : AccountInv m)
    (hholds : m.Holds t [⟨.org ids.orgId, org⟩]) :
    ¬ Clashes t (.project ids.projectId) (newProject ids now) m := by
  rintro ⟨k, v, -, hseen, hclash⟩
  cases k with
  | project id =>
      have hsame : ids.orgId = v.orgId ∧ "default" = v.name := of_decide_eq_true hclash
      have horg : v.orgId = ids.orgId := hsame.1.symm
      obtain hown | ⟨-, hstored⟩ := seen_of_holds hholds hseen
      · cases hown
      · have hparent := hinv.references.committed (.project id) v _ hstored rfl
        have hnone := hholds.stored_none hinv.added (List.dlookup_cons_eq _ _ _)
        rw [horg] at hparent
        rw [show (m.cell (.org ids.orgId)).committed = none from hnone] at hparent
        cases hparent
  | _ => cases hclash

-- The email is that of a user of another organization.
theorem registered_of_clashes {org : Organization} {project : Project} (hinv : AccountInv m)
    (hholds : m.Holds t [⟨.org ids.orgId, org⟩, ⟨.project ids.projectId, project⟩])
    (h : Clashes t (.user ids.userId) (newAccount ids normalized passwordHash now) m) :
    Registered normalized ids.orgId m.stored := by
  obtain ⟨k, v, -, hseen, hclash⟩ := h
  cases k with
  | user id =>
      have hsame : normalized = v.user.email := of_decide_eq_true hclash
      obtain hown | ⟨-, hstored⟩ := seen_of_holds hholds hseen
      · cases hown
      · refine ⟨id, v, hstored, hsame.symm, fun horg => ?_⟩
        have hparent := hinv.references.committed (.user id) v _ hstored rfl
        have hnone := hholds.stored_none hinv.added (List.dlookup_cons_eq _ _ _)
        rw [horg] at hparent
        rw [show (m.cell (.org ids.orgId)).committed = none from hnone] at hparent
        cases hparent
  | _ => cases hclash

theorem Registration.dlookup_user (r : Registration) :
    r.rows.dlookup (.user r.ids.userId) = some r.account := by
  simp [Registration.rows]

theorem Registration.rows_nodupKeys (r : Registration) : r.rows.NodupKeys := by
  simp [Registration.rows, List.NodupKeys, List.keys]

-- The commit of a transaction that holds all of a registration.
theorem publishesAccount_commit (r : Registration) (hinv : AccountInv m) (hholds : m.Holds t r.rows) :
    PublishesAccount r m (m.commit t) where
  stored := hholds.stored_commit
  new _ _ hv := hholds.stored_none hinv.added hv
  free id a hstored hemail := by
    have hseen := holds_seen hholds r.dlookup_user
    have hclash : accountClash (.user id) a (.user r.ids.userId) r.account = true :=
      decide_eq_true hemail
    have hsame := hinv.indexed (.user id) a (.user r.ids.userId) r.account (.inl hstored)
      (.of_seen hseen) hclash
    obtain rfl := AccountKey.user.inj hsame
    rw [hholds.stored_none hinv.added r.dlookup_user] at hstored
    cases hstored

theorem triple_account_commit (r : Registration) (hof : r.Of lib c) :
    Triple (accountSpec lib settings) c t (fun m => m.Holds t r.rows) (stmt .commit) fun _ m =>
      m.stored (.user r.ids.userId) = some r.account := by
  have hD : Upward fun rows : ∀ k, Option (AccountRow k) =>
      rows (.user r.ids.userId) = some r.account := fun _ _ hext h => hext _ _ h
  refine .stmt (.holds_rows _) (fun _ => stable_stored hD) (fun m u m' hwf hinv _ _ hP he _ => ?_)
    (fun _ _ _ _ _ _ _ hs => by cases hs) accountSpec_sound
  simp only [Txn.exec, Option.some.injEq, Prod.mk.injEq] at he
  obtain ⟨-, rfl⟩ := he
  refine ⟨⟨hinv.commit, .inr ⟨r, hof, publishesAccount_commit r hinv hP⟩⟩, ?_⟩
  rw [hP.stored_commit, r.dlookup_user, Option.some_or]

section Inserts

variable {org : Organization} {project : Project}

-- Nothing stands in the way of the organization.
theorem triple_insertOrg (org : Organization) :
    Triple (accountSpec lib settings) c t (fun m => m.Holds t [])
      (insertRow (.org ids.orgId) org) fun _ m => m.Holds t [⟨.org ids.orgId, org⟩] := by
  refine .post (triple_insertRow (.const False) (fun p hp => by cases hp)
    (fun id a heq => by cases heq) fun m _ _ _ hclash => ?_) fun ok m h => ?_
  · obtain ⟨k, v, -, -, hc⟩ := hclash
    cases k <;> cases hc
  · cases ok with
    | true => exact h.1 rfl
    | false => exact (h.2 rfl).elim

theorem triple_insertProject (now : Time) :
    Triple (accountSpec lib settings) c t (fun m => m.Holds t [⟨.org ids.orgId, org⟩])
      (insertRow (.project ids.projectId) (newProject ids now)) fun ok m => ok = true ∧
        m.Holds t [⟨.org ids.orgId, org⟩, ⟨.project ids.projectId, newProject ids now⟩] := by
  refine .post (triple_insertRow (.const False) (fun p hp => ?_) (fun id a heq => by cases heq)
    fun m _ hinv hholds hclash => not_clashes_project hinv hholds hclash) fun ok m h => ?_
  · obtain rfl := Option.some.inj hp
    simp [newProject]
  · cases ok with
    | true => exact ⟨rfl, h.1 rfl⟩
    | false => exact (h.2 rfl).elim

theorem triple_insertUser (normalized passwordHash : String) (now : Time) :
    Triple (accountSpec lib settings) c t
      (fun m => m.Holds t [⟨.org ids.orgId, org⟩, ⟨.project ids.projectId, project⟩])
      (insertRow (.user ids.userId) (newAccount ids normalized passwordHash now)) fun ok m =>
        (ok = true → m.Holds t [⟨.org ids.orgId, org⟩, ⟨.project ids.projectId, project⟩,
          ⟨.user ids.userId, newAccount ids normalized passwordHash now⟩]) ∧
        (ok = false → Registered normalized ids.orgId m.stored) := by
  refine triple_insertRow (upward_registered _ _) (fun p hp => ?_) (fun id a heq => ?_)
    fun m _ hinv hholds hclash => registered_of_clashes hinv hholds hclash
  · obtain rfl := Option.some.inj hp
    simp [newAccount]
  · cases heq
    rfl

end Inserts

-- Only what is said of the answer matters on the way out.
theorem triple_refuse {P : AccountDb → Prop} {err : AuthError}
    (herr : ∀ detail, err ≠ .emailAlreadyRegistered detail) :
    Triple (accountSpec lib settings) c t P
      (do stmt .rollback; return .error err : AccountTx (Except AuthError User)) fun r m =>
        (AccountCall.register email password ids).Answered lib settings (.registered r) m.stored := by
  refine Triple.pre (triple_return upward_true fun _ _ => ?_) fun _ _ _ _ _ _ => trivial
  cases err with
  | emailAlreadyRegistered detail => exact absurd rfl (herr detail)
  | _ => trivial

theorem triple_register (email password : String) (ids : RegistrationIds) :
    Triple (accountSpec lib settings) (.register email password ids) t (fun m => m.Holds t [])
      (register lib email password ids) fun r m =>
        (AccountCall.register email password ids).Answered lib settings (.registered r) m.stored := by
  refine .bind accountSpec_sound (triple_account_begin (.holds_rows _)) fun now => ?_
  by_cases hlong : 255 < (normalize lib email).length
  · rw [if_pos hlong]
    exact triple_refuse (by simp)
  rw [if_neg hlong]
  refine .bind accountSpec_sound (triple_insertOrg _) fun _ => ?_
  cases hhash : lib.hashpw password ids.salt with
  | none => exact triple_refuse (by simp)
  | some passwordHash =>
      refine .bind accountSpec_sound (triple_insertProject now) fun named => ?_
      refine .assuming (fun _ h => h.1) fun hnamed => ?_
      subst hnamed
      refine Triple.pre ?_ fun _ _ _ _ _ h => h.2
      refine .bind accountSpec_sound (triple_insertUser _ passwordHash now) fun inserted => ?_
      cases inserted with
      | false =>
          refine Triple.pre (triple_return (upward_registered _ _) fun rows h => ?_)
            fun _ _ _ _ _ h => h.2 rfl
          exact h
      | true =>
          let r : Registration := ⟨ids, normalize lib email, passwordHash, now⟩
          have hof : r.Of lib (.register email password ids) := ⟨email, password, rfl, rfl, hhash⟩
          have hD : Upward fun rows : ∀ k, Option (AccountRow k) =>
              rows (.user ids.userId) = some r.account := fun _ _ hext h => hext _ _ h
          refine Triple.pre ?_ fun _ _ _ _ _ h => h.1 rfl
          refine .bind accountSpec_sound (triple_account_commit r hof) fun _ => ?_
          exact triple_return hD fun rows h => ⟨r, hof, rfl, h⟩

-- What a lookup by email has found.
def Found (email : String) : Except AuthError (Option Account) → (∀ k, Option (AccountRow k)) → Prop
  | .ok (some a), rows => ∃ id, rows (.user id) = some a ∧ a.user.email = email
  | .ok none, _ => True
  | .error _, _ => False

theorem upward_found (email : String) (r : Except AuthError (Option Account)) :
    Upward (Found email r) := by
  intro rows rows' hext h
  match r, h with
  | .ok (some a), h =>
      obtain ⟨id, hrow, hemail⟩ := h
      exact ⟨id, hext _ _ hrow, hemail⟩
  | .ok none, _ => trivial

theorem triple_getByEmail (email : String) :
    Triple (accountSpec lib settings) c t (fun m => m.Holds t [])
      (stmt (.select (AccountRepository.getByEmail email))) fun r m => Found email r m.stored := by
  refine .post (triple_account_select (upward_found email) fun m hwf hinv hview => ?_) fun _ _ h => h.2
  rcases getByEmail_cases (t := t) hwf hinv email with ⟨id, a, hrow, hemail, heq⟩ | ⟨-, heq⟩
  · rw [heq]
    exact ⟨id, hview ▸ hrow, hemail⟩
  · rw [heq]
    trivial

theorem triple_login (email password jti : String) :
    Triple (accountSpec lib settings) (.login email password jti) t (fun m => m.Holds t [])
      (login lib settings email password jti) fun r m =>
        (AccountCall.login email password jti).Answered lib settings (.token r) m.stored := by
  refine .bind accountSpec_sound (triple_account_begin (.holds_rows _)) fun _ => ?_
  refine .bind accountSpec_sound (triple_getByEmail _) fun found => ?_
  have hrefused : Triple (accountSpec lib settings) (.login email password jti) t
      (fun m => Found (normalize lib email) found m.stored)
      (do stmt .rollback; return .error (.authentication "invalid email or password") :
        AccountTx (Except AuthError String)) fun r m =>
        (AccountCall.login email password jti).Answered lib settings (.token r) m.stored :=
    triple_return (upward_found _ _) fun _ _ => trivial
  cases found with
  | error err => exact fun _ _ _ _ _ h => h.elim
  | ok found =>
      cases found with
      | none => exact hrefused
      | some a =>
          simp only [Except.map, Option.filter]
          by_cases hverify : verifyPassword lib password a.passwordHash = true
          · rw [if_pos hverify]
            have hD := upward_found (normalize lib email) (.ok (some a))
            refine .bind accountSpec_sound (triple_account_begin (stable_stored hD)) fun now => ?_
            refine triple_return hD fun rows h => ?_
            obtain ⟨id, hrow, hemail⟩ := h
            exact ⟨id, a, now, hrow, hemail, hverify, rfl⟩
          · rw [if_neg hverify]
            exact hrefused

-- The user that a session has loaded.
def Loaded (userId : UserId) (r : Option User) (rows : ∀ k, Option (AccountRow k)) : Prop :=
  ∀ user, r = some user → ∃ a, rows (.user userId) = some a ∧ a.user = user

theorem upward_loaded (userId : UserId) (r : Option User) : Upward (Loaded userId r) := by
  intro rows rows' hext h user huser
  obtain ⟨a, ha, hauser⟩ := h user huser
  exact ⟨a, hext _ _ ha, hauser⟩

theorem triple_getUser (userId : UserId) :
    Triple (accountSpec lib settings) c t (fun m => m.Holds t []) (getUser userId) fun r m =>
      Loaded userId r m.stored := by
  have hD : ∀ found : Option Account, Upward fun rows : ∀ k, Option (AccountRow k) =>
      ∀ a, found = some a → rows (.user userId) = some a :=
    fun found rows rows' hext h a ha => hext _ _ (h a ha)
  refine .bind accountSpec_sound (triple_account_begin (.holds_rows _)) fun _ => ?_
  refine .bind accountSpec_sound (triple_account_select hD fun m _ _ hview a ha => ?_) fun found => ?_
  · rw [← hview]
    exact ha
  · have hloaded : ∀ rows : ∀ k, Option (AccountRow k),
        (∀ a, found = some a → rows (.user userId) = some a) →
          Loaded userId (Option.map Account.user found) rows := by
      intro rows h user huser
      obtain ⟨a, ha, rfl⟩ := Option.map_eq_some_iff.mp huser
      exact ⟨a, h a ha, rfl⟩
    exact (triple_return (hD found) hloaded).pre fun _ _ _ _ _ h => h.2

theorem triple_me (token : String) :
    Triple (accountSpec lib settings) (.me token) t (fun m => m.Holds t [])
      (getCurrentUser lib settings token) fun r m =>
        (AccountCall.me token).Answered lib settings (.current r) m.stored := by
  refine .bind accountSpec_sound (triple_account_begin (.holds_rows _)) fun now => ?_
  dsimp only
  cases hsub : ((decodeAccessToken lib settings token now).bind TokenPayload.sub).bind
    lib.uuidParse with
  | none => exact .pure (.holds_rows _) fun _ _ => trivial
  | some userId =>
      refine .bind accountSpec_sound (triple_getUser userId) fun found => ?_
      have hstable : Stable (accountSpec lib settings) t fun m => Loaded userId found m.stored :=
        stable_stored (upward_loaded userId found)
      cases found with
      | none => exact .pure hstable fun _ _ => trivial
      | some user =>
          refine .pure hstable fun m h => ?_
          obtain ⟨a, ha, hauser⟩ := h user rfl
          exact ⟨now, userId, a, hsub, ha, hauser⟩

theorem accountSpec_valid (lib : AuthLibrary) (settings : AuthSettings) :
    (accountSpec lib settings).Valid (accountSystem lib settings) where
  sound := accountSpec_sound
  environment _ _ _ hinv _ henv _ := hinv.of_cell henv.cell
  abort c t m _ hinv := ⟨hinv.rollback, .inl (m.stored_rollback t)⟩
  start s t c hs hfresh _ _ hinv _ := by
    have hwf : (s.mem.openTx t).WF := ⟨hs.wf.nodup, hs.wf.absent⟩
    have hholds : (s.mem.openTx t).Holds t [] :=
      Txn.holds_nil fun k v hp => hfresh (hs.held k t v hp)
    have hbody : Triple (accountSpec lib settings) c t (fun m => m.Holds t [])
        (c.body lib settings) fun v m => c.Answered lib settings v m.stored := by
      cases c with
      | register email password ids =>
          exact .bind accountSpec_sound (triple_register email password ids) fun r =>
            .pure (stable_stored (upward_answered (.registered r))) fun _ h => h
      | login email password jti =>
          exact .bind accountSpec_sound (triple_login email password jti) fun r =>
            .pure (stable_stored (upward_answered (.token r))) fun _ h => h
      | me token =>
          exact .bind accountSpec_sound (triple_me token) fun r =>
            .pure (stable_stored (upward_answered (.current r))) fun _ h => h
    exact hbody _ hwf hinv trivial List.mem_cons_self hholds

end Calls

end Chronos
