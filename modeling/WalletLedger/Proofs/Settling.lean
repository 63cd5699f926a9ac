import WalletLedger.Proofs.Closure
import WalletLedger.Proofs.Rollback

/-!
# What a batch makes of each row

What a batch does to a row and to the payments of its spend depends on the row, the deposit that is
due under its key and the spends of its output, and on nothing else. Together with the closure of the
matching this says all that a batch does, up to the order in which rows are inserted.

* `Store.holding?_rounds`, `Store.holding?_matchSpends`: the law of a single key.
* `Store.Settles`: what a batch makes of a store (`Store.settles_of_batch`).
* `Store.Settles.alike`: a batch settles a store in one way.
-/

namespace WalletLedger

/-- A ledger row with the payments of its spend. -/
structure Holding where
  row : LedgerRow
  paid : List Payee
  deriving DecidableEq

/-- The deposit side gives way to a later one, unless it is confirmed. -/
def Holding.restage (h : Holding) (side : DepositSide) : Holding :=
  if h.row.deposit.isConfirmed then h else { h with row := { h.row with deposit := side } }

/-- What a deposit makes of what is held under its key. -/
def receive : Option Deposit → Option Holding → Option Holding
  | none, held => held
  | some d, none => some ⟨⟨d.key, d.side, .unspent⟩, []⟩
  | some d, some h => some (h.restage d.side)

/-- Whether the spends of a batch write to a row: its wallet takes part, the output is spent by the
batch, and no confirmed spend is there. -/
def Holding.isSpentIn (part : Int → Bool) (batch : Batch) (h : Holding) : Bool :=
  part h.row.key.address.group.wallet && !h.row.spend.isConfirmed &&
    !(h.row.spendsIn batch.spends).isEmpty

/-- A row spent by a batch, with the payments that the batch makes. -/
def Holding.spent (batch : Batch) (h : Holding) : Holding :=
  ⟨h.row.spendBy batch.spends, ((h.row.paymentsIn batch).foldl insertPayment []).map (·.payee)⟩

/-- What the spends of a batch make of a row and its payments. -/
def Holding.spendIn (part : Int → Bool) (batch : Batch) (h : Holding) : Holding :=
  if h.isSpentIn part batch then h.spent batch else h

theorem Holding.spendIn_of_spent {part : Int → Bool} {batch : Batch} {h : Holding}
    (hhit : h.isSpentIn part batch = true) : h.spendIn part batch = h.spent batch := if_pos hhit

theorem Holding.spendIn_of_not {part : Int → Bool} {batch : Batch} {h : Holding}
    (hhit : ¬ h.isSpentIn part batch = true) : h.spendIn part batch = h := if_neg hhit

theorem Holding.isSpentIn_iff {part : Int → Bool} {batch : Batch} {h : Holding} :
    h.isSpentIn part batch = true ↔ part h.row.key.address.group.wallet = true ∧
      h.row.spend.isConfirmed = false ∧ h.row.spendsIn batch.spends ≠ [] := by
  rw [isSpentIn, Bool.and_eq_true, Bool.and_eq_true, Bool.not_eq_true', Bool.not_eq_true',
    List.isEmpty_eq_false_iff, and_assoc]

/-- Of things with different keys, a key picks one at most. -/
theorem filter_key_eq_find? {α κ : Type} [DecidableEq κ] {key : α → κ} {xs : List α}
    (h : (xs.map key).Nodup) (k : κ) :
    xs.filter (key · == k) = (xs.find? (key · == k)).toList := by
  induction xs with
  | nil => rfl
  | cons x xs ih =>
    rw [List.map_cons, List.nodup_cons] at h
    rw [List.filter_cons, List.find?_cons]
    split
    · rename_i hx
      -- the others have other keys
      have hnil : xs.filter (key · == k) = [] := by
        refine List.filter_eq_nil_iff.2 fun y hy hk => h.1 ?_
        rw [beq_iff_eq.1 hx, ← beq_iff_eq.1 hk]
        exact List.mem_map_of_mem hy
      rw [hx, hnil]
      rfl
    · rename_i hx
      rw [Bool.not_eq_true] at hx
      rw [hx]
      exact ih h.2

namespace Store

variable {s m t t' : Store} {scope : Scope} {buffer : UInt64} {outputs : List StagedOutput}
variable {part : Int → Bool} {b : Nat} {batch : Batch} {k : LedgerKey}

/-- The script of an address. -/
def scriptOf? (s : Store) (id : AddressId) : Option Script :=
  (s.addresses.find? (·.id == id)).map (·.scripts.toKeyHash)

/-- Whether an output is to be recorded under a key. -/
def pays (s : Store) (part : Int → Bool) (k : LedgerKey) (o : StagedOutput) : Bool :=
  part k.address.group.wallet && s.scriptOf? k.address == some o.script &&
    (Deposit.ofOutput k.address o).key == k

/-- The deposit that is due under a key, that of the first output to be recorded there. -/
def due? (s : Store) (part : Int → Bool) (outputs : List StagedOutput) (k : LedgerKey) :
    Option Deposit :=
  (outputs.find? (s.pays part k)).map (Deposit.ofOutput k.address)

/-- The row of a key, with its payments. -/
def holding? (s : Store) (k : LedgerKey) : Option Holding :=
  (s.row? k).map fun r => ⟨r, s.paid r.source⟩

theorem holding?_congr (hledger : t.ledger = s.ledger) (hpayments : t.payments = s.payments)
    (k : LedgerKey) : t.holding? k = s.holding? k := by
  simp only [holding?, row?, paid, hledger, hpayments]

theorem row?_eq_map_holding? (s : Store) (k : LedgerKey) :
    s.row? k = (s.holding? k).map (·.row) := by
  rw [holding?, Option.map_map]
  exact Option.map_id_fun'.symm ▸ rfl

theorem key_of_due? {d : Deposit} (h : s.due? part outputs k = some d) : d.key = k := by
  obtain ⟨o, ho, rfl⟩ := Option.map_eq_some_iff.1 h
  have hpays := List.find?_some ho
  rw [pays, Bool.and_eq_true] at hpays
  exact beq_iff_eq.1 hpays.2

theorem key_of_holding? {h : Holding} (hheld : s.holding? k = some h) : h.row.key = k := by
  obtain ⟨r, hrow, rfl⟩ := Option.map_eq_some_iff.1 hheld
  exact key_of_row? hrow

/-! ## The deposit under a key -/

theorem WellFormed.scriptOf?_eq (hs : s.WellFormed) {a : Address} (ha : a ∈ s.addresses) :
    s.scriptOf? a.id = some a.scripts.toKeyHash := by
  cases hfind : s.addresses.find? (·.id == a.id) with
  | none => exact absurd (beq_self_eq_true a.id) (List.find?_eq_none.1 hfind a ha)
  | some a' =>
    have hid : a'.id = a.id := by simpa using List.find?_some hfind
    have hsame : a' = a :=
      List.inj_on_of_nodup_map hs.address_ids (List.mem_of_find?_eq_some hfind) ha hid
    rw [scriptOf?, hfind, hsame]
    rfl

theorem exists_of_scriptOf? {id : AddressId} {script : Script} (h : s.scriptOf? id = some script) :
    ∃ a ∈ s.addresses, a.id = id ∧ a.scripts.toKeyHash = script := by
  obtain ⟨a, ha, hscript⟩ := Option.map_eq_some_iff.1 h
  exact ⟨a, List.mem_of_find?_eq_some ha, by simpa using List.find?_some ha, hscript⟩

/-- An address that stays keeps its script. -/
theorem scriptOf?_mono (ht : t.WellFormed) (h : ∀ a ∈ s.addresses, a ∈ t.addresses)
    {id : AddressId} {script : Script} (hscript : s.scriptOf? id = some script) :
    t.scriptOf? id = some script := by
  obtain ⟨a, ha, rfl, rfl⟩ := exists_of_scriptOf? hscript
  exact ht.scriptOf?_eq (h a ha)

theorem due?_congr (h : t.scriptOf? k.address = s.scriptOf? k.address) (part : Int → Bool)
    (outputs : List StagedOutput) : t.due? part outputs k = s.due? part outputs k := by
  have hpays : t.pays part k = s.pays part k := by
    funext o
    rw [pays, pays, h]
  rw [due?, due?, hpays]

/-- A deposit that is due stays due when addresses are added. -/
theorem due?_mono (ht : t.WellFormed) (h : ∀ a ∈ s.addresses, a ∈ t.addresses) {d : Deposit}
    (hdue : s.due? part outputs k = some d) : t.due? part outputs k = some d := by
  obtain ⟨o, ho, -⟩ := Option.map_eq_some_iff.1 hdue
  have hpays := List.find?_some ho
  rw [pays, Bool.and_eq_true, Bool.and_eq_true, beq_iff_eq] at hpays
  have hscript := scriptOf?_mono ht h hpays.1.2
  rw [due?_congr (hscript.trans hpays.1.2.symm), hdue]

/-- Among the candidates of one output, those of a key. -/
theorem filter_candidates (hs : s.WellFormed) (hscope : ∀ w, s.inScope scope w = part w)
    (o : StagedOutput) :
    ((s.addresses.filter fun a =>
        a.scripts.toKeyHash == o.script && s.inScope scope a.id.group.wallet).map fun a =>
          Deposit.ofOutput a.id o).filter (·.key == k) =
      if s.pays part k o then [Deposit.ofOutput k.address o] else [] := by
  rw [List.filter_map, List.filter_filter]
  -- the address that the key names, if it fits
  have htest : s.addresses.filter (fun a => ((·.key == k) ∘ fun a => Deposit.ofOutput a.id o) a &&
        (a.scripts.toKeyHash == o.script && s.inScope scope a.id.group.wallet)) =
      (s.addresses.filter (·.id == k.address)).filter fun a =>
        part k.address.group.wallet && some a.scripts.toKeyHash == some o.script &&
          (Deposit.ofOutput k.address o).key == k := by
    rw [List.filter_filter]
    refine List.filter_congr fun a _ => ?_
    rw [Function.comp_apply, hscope]
    by_cases hid : a.id = k.address
    · rw [hid, beq_self_eq_true, Bool.and_true, Option.some_beq_some]
      cases (Deposit.ofOutput k.address o).key == k <;>
        cases part k.address.group.wallet <;> cases a.scripts.toKeyHash == o.script <;> rfl
    · have hne : ((Deposit.ofOutput a.id o).key == k) = false := by
        refine beq_false_of_ne fun hk => hid ?_
        rw [← hk]
        rfl
      rw [hne, beq_false_of_ne hid, Bool.false_and, Bool.and_false]
  rw [htest, filter_key_eq_find? hs.address_ids, pays, scriptOf?]
  cases hfind : s.addresses.find? (·.id == k.address) with
  | none => simp
  | some a =>
    have hid : a.id = k.address := by simpa using List.find?_some hfind
    rw [Option.toList_some, Option.map_some, List.filter_cons, List.filter_nil]
    split
    · rw [List.map_singleton, hid]
    · rfl

/-- Matching finds the due deposit of a key that is not confirmed. -/
theorem find?_deposits (hs : s.WellFormed) (hscope : ∀ w, s.inScope scope w = part w)
    (hconf : s.isConfirmed k = false) :
    (s.deposits scope outputs).find? (·.key == k) = s.due? part outputs k := by
  have htrans := transCmp_comap (c := LedgerKey.order) Deposit.key
  have hself : LedgerKey.order k k = .eq := Std.ReflCmp.compare_self
  have hcandidates : (s.deposits scope outputs).filter (·.key == k) =
      (outputs.filter (s.pays part k)).map (Deposit.ofOutput k.address) := by
    unfold deposits
    rw [Sorting.filter_sortBy, List.filter_filter,
      List.filter_congr (q := (·.key == k)), Sorting.sortBy_eq_insertionSort,
      List.Pairwise.insertionSort_eq]
    · induction outputs with
      | nil => rfl
      | cons o outputs ih =>
        rw [List.flatMap_cons, List.filter_append, filter_candidates hs hscope, ih, List.filter_cons]
        split <;> rfl
    · -- candidates of one key are not put in another order
      refine List.pairwise_of_forall_mem_list fun x hx y hy => ?_
      have hxk := beq_iff_eq.1 (List.mem_filter.1 hx).2
      have hyk := beq_iff_eq.1 (List.mem_filter.1 hy).2
      rw [notAfter, hxk, hyk, hself]
      rfl
    · intro d _
      by_cases hk : d.key = k
      · rw [hk, hconf, Bool.not_false, Bool.and_true]
      · rw [beq_false_of_ne hk, Bool.false_and]
  rw [← List.head?_filter, hcandidates, List.head?_map, List.head?_filter, due?]

theorem find?_unapplied (applied : List LedgerKey) (ds : List Deposit) (hk : k ∉ applied) :
    (unapplied applied ds).find? (·.key == k) = ds.find? (·.key == k) := by
  induction ds generalizing applied with
  | nil => rfl
  | cons d ds ih =>
    unfold unapplied
    by_cases hd : d.key = k
    · subst hd
      rw [if_neg hk, List.find?_cons, List.find?_cons, beq_self_eq_true]
    · rw [List.find?_cons, beq_false_of_ne hd]
      split
      · exact ih applied hk
      · rw [List.find?_cons, beq_false_of_ne hd]
        refine ih _ fun hmem => ?_
        rcases List.mem_cons.1 hmem with heq | hmem
        · exact hd heq.symm
        · exact hk hmem

/-! ## Recording deposits -/

/-- A deposit carries the payments of every row along. -/
theorem paid_record {d : Deposit} (hs : s.WellFormed) (ha : s.Anchored) (ho : s.OneRowPerOutput)
    (ho' : (s.record d).2.OneRowPerOutput) {r' : LedgerRow} (hr' : r' ∈ (s.record d).2.ledger) :
    (s.record d).2.paid r'.source = ((s.row? r'.key).map fun r => s.paid r.source).getD [] := by
  -- no batch is admitted here, so a row is new or goes on
  cases @carried_of_record _ (fun _ => False) _ hs ha ho ho' r' hr' with
  | blank fresh spend paid => rw [paid, row?_eq_none_iff.2 fresh]; rfl
  | same mem key spend deposit paid => rw [paid, hs.row?_eq_some_iff.2 ⟨mem, key⟩]; rfl
  | spent admitted => exact admitted.elim

/-- A confirmed row is not recorded again. -/
theorem record_of_isConfirmed {d : Deposit} (hs : s.WellFormed) (h : s.isConfirmed d.key = true) :
    s.record d = (false, s) := by
  rw [hs.isConfirmed_eq, Option.any_eq_true] at h
  obtain ⟨r, hrow, hconf⟩ := h
  obtain ⟨hr, hk⟩ := hs.row?_eq_some_iff.1 hrow
  rcases s.record_cases d with ⟨hfresh, -⟩ | ⟨row, hmem, hkey, hunconf, -⟩ | ⟨row, -, -, -, heq⟩
  · exact absurd hk (hfresh r hr)
  · rw [hs.eq_of_key hmem hr (hkey.trans hk.symm), (hs.rows r hr).isUnconfirmed_eq, hconf] at hunconf
    cases hunconf
  · exact heq

/-- **Recording a deposit** changes what is held under its key. -/
theorem holding?_record {d : Deposit} (hs : s.WellFormed) (hs' : (s.record d).2.WellFormed)
    (ha : s.Anchored) (ho : s.OneRowPerOutput) (ho' : (s.record d).2.OneRowPerOutput) :
    (s.record d).2.holding? k =
      if d.key = k then receive (some d) (s.holding? k) else s.holding? k := by
  have hheld : (s.record d).2.holding? k = ((s.record d).2.row? k).map fun r' =>
      ⟨r', ((s.row? k).map fun r => s.paid r.source).getD []⟩ := by
    unfold holding?
    cases hrow : (s.record d).2.row? k with
    | none => rfl
    | some r' =>
      have hpaid := paid_record hs ha ho ho' (mem_of_row? hrow)
      rw [key_of_row? hrow] at hpaid
      rw [Option.map_some, Option.map_some, hpaid]
  split
  · rename_i hk
    subst hk
    cases hconf : s.isConfirmed d.key with
    | true =>
      have hany := hconf
      rw [hs.isConfirmed_eq, Option.any_eq_true] at hany
      obtain ⟨r, hrow, hr⟩ := hany
      rw [record_of_isConfirmed hs hconf, holding?, hrow, Option.map_some, receive, Holding.restage,
        if_pos hr]
    | false =>
      rw [hheld, row?_record_self hs hs' hconf, Option.map_some, spendAt, holding?]
      cases hrow : s.row? d.key with
      | none => rfl
      | some r =>
        rw [hs.isConfirmed_eq, hrow, Option.any_some] at hconf
        simp only [Option.map_some, Option.getD_some, receive, Holding.restage, hconf,
          Bool.false_eq_true, if_false, key_of_row? hrow]
  · rename_i hk
    rw [hheld, s.row?_record_of_ne (Ne.symm hk), holding?]
    cases s.row? k <;> rfl

/-- Recording deposits of different keys. -/
theorem holding?_recordAll {ds : List Deposit} (hs : s.WellFormed) (ha : s.Anchored)
    (hdue : ∀ d ∈ ds, s.IsDue scope outputs d) (hnodup : (ds.map (·.key)).Nodup)
    (ho' : (recordAll ds s).2.OneRowPerOutput) :
    (recordAll ds s).2.Anchored ∧
      ∀ k, (recordAll ds s).2.holding? k = receive (ds.find? (·.key == k)) (s.holding? k) := by
  induction ds generalizing s with
  | nil => exact ⟨ha, fun _ => rfl⟩
  | cons d ds ih =>
    rw [List.map_cons, List.nodup_cons] at hnodup
    have hm : (s.record d).2.WellFormed := wellFormed_record hs (hdue d List.mem_cons_self)
    have hlast : (recordAll ds (s.record d).2).2.OneRowPerOutput := ho'
    have hom : (s.record d).2.OneRowPerOutput :=
      oneRow_of_keys hm hlast fun k hk => mem_keys_recordAll.2 (.inl hk)
    have ho : s.OneRowPerOutput := oneRow_of_keys hs hom fun k hk => mem_keys_record.2 (.inl hk)
    have hdue' : ∀ e ∈ ds, (s.record d).2.IsDue scope outputs e := by
      intro e he
      refine (hdue e (List.mem_cons_of_mem _ he)).mono (wallets_record s d) fun a ha => ?_
      rw [addresses_record]
      exact ha
    obtain ⟨hanch, hheld⟩ := ih hm (anchored_of_record hs ha ho) hdue' hnodup.2 hlast
    simp only [recordAll]
    refine ⟨hanch, fun k => ?_⟩
    rw [hheld, holding?_record hs hm ha ho hom, List.find?_cons]
    by_cases hk : d.key = k
    · -- the others have other keys
      have hnone : ds.find? (·.key == k) = none := by
        refine List.find?_eq_none.2 fun e he hek => hnodup.1 ?_
        rw [hk, ← beq_iff_eq.1 hek]
        exact List.mem_map_of_mem he
      rw [if_pos hk, hnone, hk, beq_self_eq_true]
      rfl
    · rw [if_neg hk, beq_false_of_ne hk]

/-! ## Rounds of matching -/

theorem receive_of_isConfirmed (hs : s.WellFormed) (h : s.isConfirmed k = true) (d? : Option Deposit) :
    receive d? (s.holding? k) = s.holding? k := by
  rw [hs.isConfirmed_eq, Option.any_eq_true] at h
  obtain ⟨r, hrow, hconf⟩ := h
  rw [holding?, hrow, Option.map_some]
  cases d? with
  | none => rfl
  | some d => rw [receive, Holding.restage, if_pos hconf]

theorem find?_newDeposits {applied : List LedgerKey} (hs : s.WellFormed)
    (hscope : ∀ w, s.inScope scope w = part w) (hk : k ∉ applied) (hconf : s.isConfirmed k = false) :
    (s.newDeposits scope outputs applied).find? (·.key == k) = s.due? part outputs k := by
  rw [newDeposits, find?_unapplied _ _ hk, find?_deposits hs hscope hconf]

/-- A deposit that a round records is due. -/
theorem due?_of_newDeposits {applied : List LedgerKey} {d : Deposit} (hs : s.WellFormed)
    (hscope : ∀ w, s.inScope scope w = part w) (hk : k ∉ applied)
    (hfind : (s.newDeposits scope outputs applied).find? (·.key == k) = some d) :
    s.due? part outputs k = some d := by
  have hkey : d.key = k := by simpa using List.find?_some hfind
  have hconf := (isDue_of_mem_newDeposits (List.mem_of_find?_eq_some hfind)).2.1
  rw [← find?_newDeposits hs hscope hk (hkey ▸ hconf), hfind]

/-- A round records what is due under the keys that are not applied. -/
theorem receive_due? {applied : List LedgerKey} (hs : s.WellFormed)
    (hscope : ∀ w, s.inScope scope w = part w) (hk : k ∉ applied) :
    receive ((s.newDeposits scope outputs applied).find? (·.key == k)) (s.holding? k) =
      receive (s.due? part outputs k) (s.holding? k) := by
  cases hconf : s.isConfirmed k with
  | true => rw [receive_of_isConfirmed hs hconf, receive_of_isConfirmed hs hconf]
  | false => rw [find?_newDeposits hs hscope hk hconf]

theorem holding?_round {pools : List AddressGroup} {applied : List LedgerKey} {new : List Deposit}
    {created : List Address} (hs : s.WellFormed) (ha : s.Anchored)
    (hnew : new = s.newDeposits scope outputs applied)
    (h : extendPools buffer (s.touchedPools pools new) (recordAll new s).2 = .ok (created, t))
    (ho : t.OneRowPerOutput) :
    t.Anchored ∧ ∀ k, t.holding? k = receive (new.find? (·.key == k)) (s.holding? k) := by
  have hdue : ∀ d ∈ new, s.IsDue scope outputs d := by
    intro d hd
    rw [hnew] at hd
    exact (isDue_of_mem_newDeposits hd).1
  have hnodup : (new.map (·.key)).Nodup := by
    rw [hnew]
    exact nodup_keys_unapplied applied _
  obtain ⟨-, -, hledger, hpayments, -⟩ := frame_round h
  have ho' : (recordAll new s).2.OneRowPerOutput := by
    rw [OneRowPerOutput, ← hledger]
    exact ho
  obtain ⟨hanch, hheld⟩ := holding?_recordAll hs ha hdue hnodup ho'
  refine ⟨?_, fun k => ?_⟩
  · rw [Anchored, hledger, hpayments]
    exact hanch
  · rw [holding?_congr hledger hpayments, hheld]

theorem find?_newDeposits_of_mem {applied : List LedgerKey} (hk : k ∈ applied) :
    (s.newDeposits scope outputs applied).find? (·.key == k) = none := by
  refine List.find?_eq_none.2 fun d hd hdk => ?_
  exact (isDue_of_mem_newDeposits hd).2.2 (beq_iff_eq.1 hdk ▸ hk)

theorem mem_keys_rounds {pools : List AddressGroup} {applied : List LedgerKey}
    {found : DepositOutcome} (h : Rounds scope buffer outputs pools applied s found t)
    (hk : k ∈ s.ledger.map (·.key)) : k ∈ t.ledger.map (·.key) := by
  induction h with
  | stop => exact hk
  | last hnew hextend =>
    rw [(frame_round hextend).2.2.1]
    exact mem_keys_recordAll.2 (.inl hk)
  | round hnew hextend _ _ ih =>
    refine ih ?_
    rw [(frame_round hextend).2.2.1]
    exact mem_keys_recordAll.2 (.inl hk)

/-- **All rounds** record under each key the deposit that is due at their end. -/
theorem holding?_rounds {pools : List AddressGroup} {applied : List LedgerKey}
    {found : DepositOutcome} (hs : s.WellFormed) (ha : s.Anchored)
    (hscope : ∀ w, s.inScope scope w = part w)
    (h : Rounds scope buffer outputs pools applied s found t) (ho : t.OneRowPerOutput) (k : LedgerKey) :
    t.holding? k =
      if k ∈ applied then s.holding? k else receive (t.due? part outputs k) (s.holding? k) := by
  induction h with
  | @stop applied s hnone =>
    split
    · rfl
    · rename_i hk
      rw [← receive_due? hs hscope hk, hnone]
      rfl
  | @last applied s t new hnew hextend =>
    obtain ⟨-, hheld⟩ := holding?_round hs ha hnew hextend ho
    obtain ⟨-, haddresses, -⟩ := frame_round hextend
    have hscript : t.scriptOf? k.address = s.scriptOf? k.address := by
      rw [scriptOf?, haddresses, List.append_nil, scriptOf?]
    rw [hheld k, due?_congr hscript, hnew]
    split
    · rename_i hk
      rw [find?_newDeposits_of_mem hk]
      rfl
    · rename_i hk
      exact receive_due? hs hscope hk
  | @round applied s m t new created rest hnew hextend grown next ih =>
    have hm := wellFormed_round hs hnew hextend
    have hom : m.OneRowPerOutput := oneRow_of_keys hm ho fun k hk => mem_keys_rounds next hk
    obtain ⟨hma, hheld⟩ := holding?_round hs ha hnew hextend hom
    obtain ⟨hwallets, haddresses, -⟩ := frame_round hextend
    rw [ih hm hma (fun w => (inScope_congr hwallets w).trans (hscope w)) ho, hheld k]
    by_cases hka : k ∈ applied
    · rw [if_pos (List.mem_append_left _ hka), if_pos hka, hnew, find?_newDeposits_of_mem hka]
      rfl
    · rw [if_neg hka]
      cases hfind : new.find? (·.key == k) with
      | none =>
        -- not recorded in this round, so left to the later ones
        have hkn : k ∉ new.map (·.key) := by
          intro hmem
          obtain ⟨d, hd, hdk⟩ := List.mem_map.1 hmem
          exact List.find?_eq_none.1 hfind d hd (beq_iff_eq.2 hdk)
        rw [if_neg (fun hmem => (List.mem_append.1 hmem).elim hka hkn)]
        rfl
      | some d =>
        -- what is due in this round is due at the end
        have hkn : k ∈ new.map (·.key) :=
          List.mem_map.2 ⟨d, List.mem_of_find?_eq_some hfind, by simpa using List.find?_some hfind⟩
        rw [hnew] at hfind
        have hdue := due?_of_newDeposits hs hscope hka hfind
        have hsub : ∀ a ∈ s.addresses, a ∈ t.addresses := by
          intro a ha
          rw [(frame_rounds next).2.1, haddresses]
          exact List.mem_append_left _ (List.mem_append_left _ ha)
        rw [if_pos (List.mem_append_right _ hkn), due?_mono (wellFormed_rounds hm next) hsub hdue]

/-! ## Spends -/

/-- **Recording the spends of a batch** spends what is held. -/
theorem holding?_matchSpends (hs : s.WellFormed) (ho : s.OneRowPerOutput)
    (hscope : ∀ w, s.inScope scope w = part w) (k : LedgerKey) :
    (s.matchSpends scope batch).2.holding? k = (s.holding? k).map (·.spendIn part batch) := by
  have hkey : ∀ r : LedgerRow, (if s.isSpentBy scope batch.spends r then r.spendBy batch.spends
      else r).key = r.key := by
    intro r
    split
    · exact (r.key_spendBy _).1
    · rfl
  have hrow : (s.matchSpends scope batch).2.row? k = (s.row? k).map fun r =>
      if s.isSpentBy scope batch.spends r then r.spendBy batch.spends else r := by
    have htest : (fun r : LedgerRow => r.key == k) ∘ (fun r =>
        if s.isSpentBy scope batch.spends r then r.spendBy batch.spends else r) =
          fun r => r.key == k := by
      funext r
      rw [Function.comp_apply, hkey]
    rw [row?, matchSpends, List.find?_map, htest, row?]
  rw [holding?, hrow, holding?, Option.map_map, Option.map_map]
  cases hcase : s.row? k with
  | none => rfl
  | some r =>
    have hpaid := paid_matchSpends scope batch hs ho (mem_of_row? hcase)
    have hsource : (r.spendBy batch.spends).source = r.source := by
      rw [LedgerRow.source, LedgerRow.source, (r.key_spendBy _).1, (r.key_spendBy _).2]
    have hspent : Holding.isSpentIn part batch ⟨r, s.paid r.source⟩ =
        s.isSpentBy scope batch.spends r := by
      rw [isSpentBy, hscope, Holding.isSpentIn]
    simp only [Option.map_some, Function.comp_apply, Holding.spendIn, Holding.spent, hspent]
    split
    · rename_i hhit
      rw [if_pos hhit] at hpaid
      rw [hsource, hpaid]
    · rename_i hhit
      rw [if_neg hhit] at hpaid
      rw [hpaid]

/-! ## Batches -/

/-- What a batch makes of a store: the least closed store, and in it, under each key, what the due
deposit and the spends of the batch make of what was held. -/
structure Settles (part : Int → Bool) (b : Nat) (batch : Batch) (s t : Store) : Prop where
  reaches : Reaches part b batch.outputs s t
  holding : ∀ k, t.holding? k =
    (receive (t.due? part batch.outputs k) (s.holding? k)).map (·.spendIn part batch)

/-- **A batch settles a store.** -/
theorem settles_of_batch {config : Config} {header : Option BatchHeader} {chain : ChainView}
    {outcome : BatchOutcome} (hb : config.topUpBuffer.toNat < ExtendedKey.numberLimit) (hs : s.Built)
    (ha : s.Anchored) (hscope : ∀ w, s.inScope (Scope.ofBatch config header) w = part w)
    (h : s.applyBatch config batch header chain = .ok (outcome, t)) (ho : t.OneRowPerOutput) :
    Settles part config.topUpBuffer.toNat batch s t := by
  refine ⟨reaches_of_batch hb hs hscope h, fun k => ?_⟩
  obtain ⟨found, d, names, hrounds, hmoved⟩ := parts_of_applyBatch h
  have hmove := frame_advance hmoved
  have hledger : t.ledger = (d.matchSpends (Scope.ofBatch config header) batch).2.ledger := by
    rw [hmove]
  have hpayments : t.payments = (d.matchSpends (Scope.ofBatch config header) batch).2.payments := by
    rw [hmove]
  obtain ⟨-, haddresses, hpairs⟩ := frame_moved hmoved
  have hd := wellFormed_rounds hs.wellFormed hrounds
  have hod : d.OneRowPerOutput := by
    refine oneRow_of_keys hd ho fun k hk => ?_
    have hfst := congrArg (List.map Prod.fst) hpairs
    rw [List.map_map, List.map_map] at hfst
    exact hfst ▸ hk
  have hscope' : ∀ w, d.inScope (Scope.ofBatch config header) w = part w :=
    fun w => (inScope_congr (frame_rounds hrounds).1 w).trans (hscope w)
  have hscript : t.scriptOf? k.address = d.scriptOf? k.address := by
    rw [scriptOf?, haddresses, scriptOf?]
  rw [holding?_congr hledger hpayments, holding?_matchSpends hd hod hscope',
    holding?_rounds hs.wellFormed ha hscope hrounds hod k, if_neg List.not_mem_nil,
    due?_congr hscript]

/-- Nothing is seen, nothing happens. -/
theorem Settles.refl (hs : s.Built) : Settles part b .empty s s where
  reaches := .refl hs
  holding := by
    intro k
    have hnone : ∀ h : Holding, h.spendIn part .empty = h := by
      intro h
      rw [Holding.spendIn, Holding.isSpentIn, LedgerRow.spendsIn, Batch.empty, List.filter_nil,
        List.isEmpty_nil, Bool.not_true, Bool.and_false]
      rfl
    show s.holding? k = (s.holding? k).map (·.spendIn part .empty)
    simp only [hnone, Option.map_id']

/-! ## Stores that are alike -/

/-- Two stores hold the same, up to the order in which rows were inserted. -/
structure Alike (s t : Store) : Prop where
  wallets : s.wallets = t.wallets
  accounts : s.accounts = t.accounts
  addresses : s.addresses.Perm t.addresses
  ledger : s.ledger.Perm t.ledger
  payments : s.payments.Perm t.payments

theorem Alike.refl (s : Store) : s.Alike s := ⟨rfl, rfl, .refl _, .refl _, .refl _⟩

theorem ledger_perm_of_holding? (hs : s.WellFormed) (ht : t.WellFormed)
    (h : ∀ k, s.holding? k = t.holding? k) : s.ledger.Perm t.ledger := by
  refine (List.perm_ext_iff_of_nodup (List.Nodup.of_map _ hs.ledger_keys)
    (List.Nodup.of_map _ ht.ledger_keys)).2 fun r => ?_
  have hrow : s.row? r.key = t.row? r.key := by
    rw [row?_eq_map_holding?, row?_eq_map_holding?, h]
  have hiff : (r ∈ s.ledger ∧ r.key = r.key) ↔ (r ∈ t.ledger ∧ r.key = r.key) := by
    rw [← hs.row?_eq_some_iff, ← ht.row?_eq_some_iff, hrow]
  simpa using hiff

/-- Payments stem from rows, so the payments under every key are all payments. -/
theorem payments_perm_of_holding? (hs : s.WellFormed) (ht : t.WellFormed) (hsa : s.Anchored)
    (hta : t.Anchored) (h : ∀ k, s.holding? k = t.holding? k) : s.payments.Perm t.payments := by
  have hledger := ledger_perm_of_holding? hs ht h
  have hpaid : ∀ source, s.paid source = t.paid source := by
    intro source
    by_cases hrow : ∃ r ∈ s.ledger, r.source = source
    · obtain ⟨r, hr, rfl⟩ := hrow
      have hheld := h r.key
      rw [holding?, holding?, hs.row?_eq_some_iff.2 ⟨hr, rfl⟩,
        ht.row?_eq_some_iff.2 ⟨hledger.mem_iff.1 hr, rfl⟩, Option.map_some, Option.map_some,
        Option.some.injEq, Holding.mk.injEq] at hheld
      exact hheld.2
    · have hnone : ∀ u : Store, u.Anchored → (∀ r ∈ u.ledger, r ∈ s.ledger) → u.paid source = [] := by
        intro u hu hsub
        refine paid_eq_nil fun p hp hsource => ?_
        obtain ⟨r, hr, hrsource, -⟩ := hu p hp
        exact hrow ⟨r, hsub r hr, hrsource.trans hsource⟩
      rw [hnone s hsa fun r hr => hr, hnone t hta fun r hr => hledger.mem_iff.2 hr]
  rw [List.perm_iff_count]
  intro p
  -- a payment is counted among those of its source
  have hcount : ∀ u : Store, u.payments.count p = (u.paid p.source).count p.payee := by
    intro u
    rw [paid, List.count_eq_countP, List.count_eq_countP, List.countP_map, List.countP_filter]
    refine List.countP_congr fun q _ => ?_
    obtain ⟨source, index, script, value⟩ := p
    obtain ⟨source', index', script', value'⟩ := q
    simp [PaymentRow.payee, and_comm]
  rw [hcount, hcount, hpaid]

/-- **A batch settles a store in one way**, up to the order of rows. -/
theorem Settles.alike (h : Settles part b batch s t) (h' : Settles part b batch s t')
    (ha : t.Anchored) (ha' : t'.Anchored) (hwallets : t.wallets = t'.wallets) : t.Alike t' := by
  have ht := h.reaches.built.wellFormed
  have ht' := h'.reaches.built.wellFormed
  have hle := h.reaches.le h'.reaches
  have hge := h'.reaches.le h.reaches
  have hheld : ∀ k, t.holding? k = t'.holding? k := by
    intro k
    have hscript : t.scriptOf? k.address = t'.scriptOf? k.address := by
      refine Option.ext fun script => ?_
      exact ⟨scriptOf?_mono ht' hle.addresses, scriptOf?_mono ht hge.addresses⟩
    rw [h.holding k, h'.holding k, due?_congr hscript]
  refine ⟨hwallets, h.reaches.accounts.trans h'.reaches.accounts.symm, ?_,
    ledger_perm_of_holding? ht ht' hheld, payments_perm_of_holding? ht ht' ha ha' hheld⟩
  refine (List.perm_ext_iff_of_nodup (List.Nodup.of_map _ ht.address_ids)
    (List.Nodup.of_map _ ht'.address_ids)).2 fun a => ?_
  exact ⟨hle.addresses a, hge.addresses a⟩

end Store

namespace Indexer

open Store

variable {ix ix' : Indexer} {part : Int → Bool} {batch : Batch} {header : Option BatchHeader}
variable {chain : ChainView} {outcome : BatchOutcome}

/-- An indexer whose store calls have built, with a buffer that can be derived. -/
structure Ready (ix : Indexer) : Prop where
  built : ix.store.Built
  anchored : ix.store.Anchored
  buffer : ix.config.topUpBuffer.toNat < ExtendedKey.numberLimit

theorem ready_of_history {calls : List Call} {past : List Indexer} (hist : History calls (ix :: past))
    (hrows : ∀ j ∈ ix :: past, j.store.OneRowPerOutput)
    (hb : ix.config.topUpBuffer.toNat < ExtendedKey.numberLimit) : ix.Ready := by
  have hbuilt := built_of_history hist ix List.mem_cons_self ix.network
  have hanch := anchored_of_history hist hrows ix List.mem_cons_self ix.network
  rw [storeOf_network] at hbuilt hanch
  exact ⟨hbuilt, hanch, hb⟩

/-- **A batch settles the store** of an indexer, which stays ready for another. -/
theorem Ready.settles (h : ix.Ready)
    (hscope : ∀ w, ix.store.inScope (Scope.ofBatch ix.config header) w = part w)
    (hcall : ix.processBatch batch header chain = .ok (outcome, ix'))
    (ho : ix'.store.OneRowPerOutput) :
    Settles part ix.config.topUpBuffer.toNat batch ix.store ix'.store ∧ ix'.Ready := by
  obtain ⟨happly, hconfig⟩ := applyBatch_of_processBatch hcall
  have hsettles := settles_of_batch h.buffer h.built h.anchored hscope happly ho
  have hwrites : Writes (fun _ => True) ix.store ix'.store := writes_applyBatch trivial happly
  refine ⟨hsettles, hsettles.reaches.built, ?_, by rw [hconfig]; exact h.buffer⟩
  exact anchored_of_writes h.built.wellFormed h.anchored ho hwrites

end Indexer

end WalletLedger
