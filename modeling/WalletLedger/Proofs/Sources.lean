import WalletLedger.Store.Damage
import WalletLedger.Proofs.WellFormed

/-!
# The rows that payments stem from

A payment names the row it stems from by time and output alone. As long as no output has two rows
this is enough: payments stem from spent rows, and whatever changes a row takes its payments along.

* `Store.Anchored`: payments stem from spent rows.
* `Store.Carried`: what a write does to a row and its payments, proved by `Store.carried_of_write`.
* `Store.carried_of_undoAbove`, `Store.carried_of_dropUnconfirmed`: what rollbacks and removals do.
-/

namespace WalletLedger

/-- What a payment says of the spending transaction. -/
structure Payee where
  index : UInt32
  script : Script
  value : UInt64
  deriving DecidableEq

/-- A payment without its source. -/
def PaymentRow.payee (p : PaymentRow) : Payee := ⟨p.index, p.script, p.value⟩

/-- A payment of a source. -/
def Payee.row (y : Payee) (source : PaymentSource) : PaymentRow :=
  ⟨source, y.index, y.script, y.value⟩

namespace Store

variable {s s' : Store} {staged : Batch → Prop} {scope : Scope} {batch : Batch}
variable {source : PaymentSource} {r : LedgerRow}

/-- No output has two rows. -/
def OneRowPerOutput (s : Store) : Prop :=
  ∀ r ∈ s.ledger, ∀ r' ∈ s.ledger, r.key.txid = r'.key.txid → r.key.vout = r'.key.vout → r = r'

instance (s : Store) : Decidable s.OneRowPerOutput :=
  inferInstanceAs (Decidable (∀ r ∈ s.ledger, ∀ r' ∈ s.ledger, _ → _ → r = r'))

/-- Payments stem from spent rows. -/
def Anchored (s : Store) : Prop :=
  ∀ p ∈ s.payments, ∃ r ∈ s.ledger, r.source = p.source ∧ r.spend.txid.isSome = true

/-- The payments of a source, in the order they were recorded. -/
def paid (s : Store) (source : PaymentSource) : List Payee :=
  (s.payments.filter (·.source == source)).map (·.payee)

/-- What becomes of a row and its payments: it is new, or goes on as it was, or a batch spends it. -/
inductive Carried (staged : Batch → Prop) (s s' : Store) (r' : LedgerRow) : Prop
  | blank (fresh : ∀ r ∈ s.ledger, r.key ≠ r'.key) (spend : r'.spend = .unspent)
      (paid : s'.paid r'.source = []) : Carried staged s s' r'
  | same {r : LedgerRow} (mem : r ∈ s.ledger) (key : r.key = r'.key) (spend : r.spend = r'.spend)
      (deposit : r.deposit.isConfirmed = true → r.deposit = r'.deposit)
      (paid : s'.paid r'.source = s.paid r.source) : Carried staged s s' r'
  | spent {r : LedgerRow} {scope : Scope} {batch : Batch} (admitted : staged batch)
      (mem : r ∈ s.ledger) (hit : s.isSpentBy scope batch.spends r = true)
      (row : r' = r.spendBy batch.spends)
      (paid : s'.paid r'.source = ((r.paymentsIn batch).foldl insertPayment []).map (·.payee)) :
      Carried staged s s' r'

/-! ## One row per output -/

theorem oneRow_of_nil (h : s.ledger = []) : s.OneRowPerOutput := by
  intro r hr
  rw [h] at hr
  cases hr

theorem OneRowPerOutput.eq_of_source (ho : s.OneRowPerOutput) {r r' : LedgerRow} (hr : r ∈ s.ledger)
    (hr' : r' ∈ s.ledger) (h : r.source = r'.source) : r = r' :=
  ho r hr r' hr' (congrArg PaymentSource.txid h) (congrArg PaymentSource.vout h)

theorem mem_keys_of_write (h : Write staged s s') {k : LedgerKey}
    (hk : k ∈ s.ledger.map (·.key)) : k ∈ s'.ledger.map (·.key) := by
  rcases ledger_cases h with ⟨_, _, d, -, -, rfl⟩ | ⟨scope, batch, -, rfl⟩ | ⟨hledger, -, -⟩
  · exact mem_keys_record.2 (.inl hk)
  · have hkeys := congrArg (List.map Prod.fst) (s.key_matchSpends scope batch)
    rw [List.map_map, List.map_map] at hkeys
    exact hkeys ▸ hk
  · rw [hledger]
    exact hk

/-- If every key is there later, one row per output later is one row per output now. -/
theorem oneRow_of_keys (hs : s.WellFormed) (ho : s'.OneRowPerOutput)
    (hkeys : ∀ k ∈ s.ledger.map (·.key), k ∈ s'.ledger.map (·.key)) : s.OneRowPerOutput := by
  intro r hr r' hr' htxid hvout
  obtain ⟨r₁, hr₁, hk₁⟩ := List.mem_map.1 (hkeys _ (List.mem_map_of_mem hr))
  obtain ⟨r₂, hr₂, hk₂⟩ := List.mem_map.1 (hkeys _ (List.mem_map_of_mem hr'))
  have heq := ho r₁ hr₁ r₂ hr₂ (by rw [hk₁, hk₂, htxid]) (by rw [hk₁, hk₂, hvout])
  exact hs.eq_of_key hr hr' (by rw [← hk₁, ← hk₂, heq])

/-- If no output has two rows after a write, none has before it. -/
theorem oneRow_of_write (hs : s.WellFormed) (ho : s'.OneRowPerOutput) (h : Write staged s s') :
    s.OneRowPerOutput := oneRow_of_keys hs ho fun _ hk => mem_keys_of_write h hk

/-! ## The payments of a source -/

theorem paid_eq_nil (h : ∀ p ∈ s.payments, p.source ≠ source) : s.paid source = [] := by
  unfold paid
  rw [List.filter_eq_nil_iff.2, List.map_nil]
  intro p hp hsource
  exact h p hp (beq_iff_eq.1 hsource)

/-- No payment stems from a row without a spend. -/
theorem Anchored.source_ne_of_unspent (ha : s.Anchored) (ho : s.OneRowPerOutput) (hr : r ∈ s.ledger)
    (hspend : r.spend.txid = none) : ∀ p ∈ s.payments, p.source ≠ r.source := by
  intro p hp hsource
  obtain ⟨r', hr', hsource', hsome⟩ := ha p hp
  rw [ho.eq_of_source hr' hr (hsource'.trans hsource), hspend] at hsome
  cases hsome

/-- A row without a spend has no payments. -/
theorem Anchored.paid_of_unspent (ha : s.Anchored) (ho : s.OneRowPerOutput) (hr : r ∈ s.ledger)
    (hspend : r.spend.txid = none) : s.paid r.source = [] :=
  paid_eq_nil (ha.source_ne_of_unspent ho hr hspend)

/-- The payments of an output are those of its row. -/
theorem paymentsFor_eq (ha : s.Anchored) (ho : s.OneRowPerOutput) (hr : r ∈ s.ledger) {o : OutPoint}
    (htxid : o.txid.bytes = r.key.txid) (hvout : o.vout = r.key.vout) :
    s.paymentsFor o = (Sorting.sortBy (notAfter paymentOrder)
      ((s.paid r.source).map (·.row r.source))).mapM (·.decode) := by
  -- the query asks for the output, payments name its time as well
  have hfilter : s.payments.filter (fun p => p.source.txid == o.txid.bytes && p.source.vout == o.vout) =
      s.payments.filter (·.source == r.source) := by
    refine List.filter_congr fun p hp => ?_
    rw [Bool.eq_iff_iff, Bool.and_eq_true, beq_iff_eq, beq_iff_eq, beq_iff_eq, htxid, hvout]
    constructor
    · rintro ⟨hp₁, hp₂⟩
      obtain ⟨r', hr', hsource, -⟩ := ha p hp
      rw [← hsource] at hp₁ hp₂ ⊢
      rw [ho r' hr' r hr hp₁ hp₂]
    · intro hsource
      rw [hsource]
      exact ⟨rfl, rfl⟩
  have hrow : (s.paid r.source).map (·.row r.source) =
      s.payments.filter (·.source == r.source) := by
    unfold paid
    rw [List.map_map]
    refine map_eq_self fun p hp => ?_
    have hsource := beq_iff_eq.1 (List.mem_filter.1 hp).2
    obtain ⟨source, index, script, value⟩ := p
    simp only at hsource
    rw [hsource]
    rfl
  unfold paymentsFor
  rw [hfilter, hrow]

/-- An output without a row has no payments. -/
theorem paymentsFor_of_absent (ha : s.Anchored) {o : OutPoint}
    (h : ∀ r ∈ s.ledger, isOfOutput o r = false) : s.paymentsFor o = .ok [] := by
  have hnil : s.payments.filter
      (fun p => p.source.txid == o.txid.bytes && p.source.vout == o.vout) = [] := by
    refine List.filter_eq_nil_iff.2 fun p hp hout => ?_
    obtain ⟨r, hr, hsource, -⟩ := ha p hp
    rw [← hsource] at hout
    exact Bool.false_ne_true ((h r hr).symm.trans hout)
  unfold paymentsFor
  rw [hnil]
  rfl

/-- Payments that are changed in the source only. -/
theorem paid_map {f : PaymentRow → PaymentRow} {source source' : PaymentSource}
    (hpayments : s'.payments = s.payments.map f) (hpayee : ∀ p ∈ s.payments, (f p).payee = p.payee)
    (hsource : ∀ p ∈ s.payments, (f p).source = source' ↔ p.source = source) :
    s'.paid source' = s.paid source := by
  unfold paid
  rw [hpayments, List.filter_map, List.map_map]
  have hfilter : s.payments.filter ((·.source == source') ∘ f) =
      s.payments.filter (·.source == source) := by
    refine List.filter_congr fun p hp => ?_
    rw [Bool.eq_iff_iff, Function.comp_apply, beq_iff_eq, beq_iff_eq]
    exact hsource p hp
  rw [hfilter]
  exact List.map_congr_left fun p hp => hpayee p (List.mem_filter.1 hp).1

/-! ## Deposits -/

/-- If no output has two rows, no payments give way to those of a row that gets another time. -/
theorem retime_eq_map (ha : s.Anchored) (ho : s.OneRowPerOutput) (hr : r ∈ s.ledger) (time : UInt32) :
    retime s.payments r.source time = s.payments.map fun p =>
      if p.source = r.source then { p with source := { r.source with time := time } } else p := by
  unfold retime
  split
  · rename_i htime
    refine (map_eq_self fun p _ => ?_).symm
    split
    · rename_i hsource
      rw [← htime, ← hsource]
    · rfl
  · rename_i htime
    dsimp only
    rw [List.filter_eq_self.2]
    intro p hp
    have hne : p.source ≠ { r.source with time := time } := by
      intro hsource
      obtain ⟨r', hr', hsource', -⟩ := ha p hp
      have heq := hsource'.trans hsource
      have hrow := ho r' hr' r hr (congrArg PaymentSource.txid heq) (congrArg PaymentSource.vout heq)
      rw [hrow] at heq
      exact htime (congrArg PaymentSource.time heq)
    rw [beq_false_of_ne hne, Bool.false_and, Bool.not_false]

/-- The payments of a row that gets another time go along. -/
theorem paid_retime_self (ha : s.Anchored) (ho : s.OneRowPerOutput) (hr : r ∈ s.ledger)
    {time : UInt32} (hpayments : s'.payments = retime s.payments r.source time) :
    s'.paid { r.source with time := time } = s.paid r.source := by
  rw [retime_eq_map ha ho hr] at hpayments
  refine paid_map hpayments ?_ ?_
  · intro p _
    split <;> rfl
  · intro p hp
    split
    · rename_i hp'
      exact ⟨fun _ => hp', fun _ => rfl⟩
    · rename_i hp'
      refine ⟨fun htarget => ?_, fun h => absurd h hp'⟩
      -- a payment that has the new time already stems from a row of the same output
      obtain ⟨r₀, hr₀, hsource₀, -⟩ := ha p hp
      have heq₀ := hsource₀.trans htarget
      have hrow := ho r₀ hr₀ r hr (congrArg PaymentSource.txid heq₀)
        (congrArg PaymentSource.vout heq₀)
      rw [hrow] at hsource₀
      exact hsource₀.symm

/-- The payments of all other rows stay. -/
theorem paid_retime_of_ne (ha : s.Anchored) (ho : s.OneRowPerOutput) (hr : r ∈ s.ledger)
    {row : LedgerRow} (hrow : row ∈ s.ledger) (hne : row ≠ r) {time : UInt32}
    (hpayments : s'.payments = retime s.payments row.source time) :
    s'.paid r.source = s.paid r.source := by
  rw [retime_eq_map ha ho hrow] at hpayments
  have hother : ∀ time, { row.source with time := time } ≠ r.source := by
    intro time heq
    exact hne (ho row hrow r hr (congrArg PaymentSource.txid heq) (congrArg PaymentSource.vout heq))
  refine paid_map hpayments ?_ ?_
  · intro p _
    split <;> rfl
  · intro p _
    split
    · rename_i hp
      rw [hp]
      exact ⟨fun h => absurd h (hother time), fun h => absurd h (hother row.deposit.time)⟩
    · exact Iff.rfl

theorem anchored_of_record {d : Deposit} (hs : s.WellFormed) (ha : s.Anchored)
    (ho : s.OneRowPerOutput) : (s.record d).2.Anchored := by
  rcases s.record_cases d with ⟨-, heq⟩ | ⟨row, hrow, hkey, -, heq⟩ | ⟨row, -, -, -, heq⟩
  · rw [heq]
    intro p hp
    obtain ⟨r, hr, hrest⟩ := ha p hp
    exact ⟨r, List.mem_append_left _ hr, hrest⟩
  · rw [heq]
    intro p hp
    simp only [retime_eq_map ha ho hrow] at hp
    obtain ⟨q, hq, rfl⟩ := List.mem_map.1 hp
    obtain ⟨r, hr, hrsource, hsome⟩ := ha q hq
    by_cases hk : r.key = d.key
    · have hrr := hs.eq_of_key hr hrow (hk.trans hkey.symm)
      subst hrr
      rw [if_pos hrsource.symm]
      exact ⟨{ r with deposit := d.side }, List.mem_map.2 ⟨r, hr, if_pos hk⟩, rfl, hsome⟩
    · have hne : q.source ≠ row.source := by
        intro hq'
        rw [ho.eq_of_source hr hrow (hrsource.trans hq')] at hk
        exact hk hkey
      rw [if_neg hne]
      exact ⟨r, List.mem_map.2 ⟨r, hr, if_neg hk⟩, hrsource, hsome⟩
  · rw [heq]
    exact ha

theorem carried_of_record {d : Deposit} (hs : s.WellFormed) (ha : s.Anchored)
    (ho : s.OneRowPerOutput) (ho' : (s.record d).2.OneRowPerOutput) :
    ∀ r' ∈ (s.record d).2.ledger, Carried staged s (s.record d).2 r' := by
  rcases s.record_cases d with ⟨hfresh, heq⟩ | ⟨row, hrow, hkey, hunconf, heq⟩ | ⟨row, -, -, -, heq⟩
  · rw [heq] at ho' ⊢
    intro r' hr'
    rcases List.mem_append.1 hr' with hr | hr
    · exact .same hr rfl rfl (fun _ => rfl) rfl
    · rw [List.mem_singleton] at hr
      subst hr
      refine .blank hfresh rfl (paid_eq_nil fun p hp hsource => ?_)
      -- a payment of the new row's source would stem from another row of its output
      obtain ⟨r, hr, hsource', -⟩ := ha p hp
      have hsame := ho'.eq_of_source (List.mem_append_left _ hr) hr' (hsource'.trans hsource)
      exact hfresh r hr (congrArg LedgerRow.key hsame)
  · rw [heq]
    intro r' hr'
    obtain ⟨r, hr, rfl⟩ := List.mem_map.1 hr'
    split
    · rename_i hk
      have hrr := hs.eq_of_key hr hrow (hk.trans hkey.symm)
      subst hrr
      refine .same hr rfl rfl (fun hconf => ?_) (paid_retime_self ha ho hr rfl)
      rw [(hs.rows r hr).isUnconfirmed_eq, hconf] at hunconf
      cases hunconf
    · rename_i hk
      have hne : row ≠ r := by
        intro hrr
        exact hk (hrr ▸ hkey)
      exact .same hr rfl rfl (fun _ => rfl) (paid_retime_of_ne ha ho hr hrow hne rfl)
  · rw [heq]
    intro r' hr'
    exact .same hr' rfl rfl (fun _ => rfl) rfl

/-! ## Spends -/

/-- Payments of another source do not meet. -/
theorem filter_insertPayments (source : PaymentSource) (ps payments : List PaymentRow) :
    (ps.foldl insertPayment payments).filter (·.source == source) =
      (ps.filter (·.source == source)).foldl insertPayment
        (payments.filter (·.source == source)) := by
  induction ps generalizing payments with
  | nil => rfl
  | cons p ps ih =>
    rw [List.foldl_cons, ih]
    -- inserting touches the payments of one source only
    by_cases hp : p.source = source
    · subst hp
      rw [List.filter_cons_of_pos (by simp), List.foldl_cons]
      congr 1
      unfold insertPayment
      rw [List.filter_append, List.filter_filter, List.filter_filter]
      congr 1
      · refine List.filter_congr fun q _ => Bool.and_comm _ _
      · simp
    · rw [List.filter_cons_of_neg (by simpa using hp)]
      congr 1
      unfold insertPayment
      rw [List.filter_append, List.filter_filter, List.filter_cons_of_neg (by simpa using hp),
        List.filter_nil, List.append_nil]
      refine List.filter_congr fun q _ => ?_
      by_cases hq : q.source = source
      · have hne : ¬ q.source = p.source := hq ▸ Ne.symm hp
        simp [hne]
      · simp [hq]

theorem filter_paymentsIn (r : LedgerRow) (batch : Batch) (source : PaymentSource) :
    (r.paymentsIn batch).filter (·.source == source) =
      if r.source = source then r.paymentsIn batch else [] := by
  split
  · rename_i hsource
    refine List.filter_eq_self.2 fun p hp => ?_
    rw [source_of_mem_paymentsIn hp, hsource, beq_self_eq_true]
  · rename_i hsource
    refine List.filter_eq_nil_iff.2 fun p hp => ?_
    rw [source_of_mem_paymentsIn hp]
    simpa using hsource

theorem filter_flatMap_paymentsIn (rows : List LedgerRow) (batch : Batch) (source : PaymentSource) :
    (rows.flatMap (·.paymentsIn batch)).filter (·.source == source) =
      (rows.filter (·.source == source)).flatMap (·.paymentsIn batch) := by
  induction rows with
  | nil => rfl
  | cons r rows ih =>
    rw [List.flatMap_cons, List.filter_append, ih, filter_paymentsIn, List.filter_cons]
    by_cases hsource : r.source = source
    · simp [hsource]
    · simp [hsource]

/-- The spent rows of a source: the row itself, if it is spent. -/
theorem filter_spent (hs : s.WellFormed) (ho : s.OneRowPerOutput) (hr : r ∈ s.ledger)
    (test : LedgerRow → Bool) :
    (s.ledger.filter test).filter (·.source == r.source) = if test r then [r] else [] := by
  have hnodup : s.ledger.Nodup := List.Nodup.of_map _ hs.ledger_keys
  have hsame : (s.ledger.filter test).filter (·.source == r.source) =
      (s.ledger.filter (· == r)).filter test := by
    rw [List.filter_filter, List.filter_filter]
    refine List.filter_congr fun r' hr' => ?_
    have hiff : (r'.source == r.source) = (r' == r) := by
      rw [Bool.eq_iff_iff, beq_iff_eq, beq_iff_eq]
      exact ⟨fun h => ho.eq_of_source hr' hr h, fun h => by rw [h]⟩
    rw [hiff, Bool.and_comm]
  rw [hsame, List.filter_beq, List.count_eq_one_of_mem hnodup hr]
  cases htest : test r <;> simp [htest]

theorem txid_spendBy {spends : List StagedSpend} (h : (r.spendsIn spends).isEmpty = false) :
    (r.spendBy spends).spend.txid.isSome = true := by
  unfold LedgerRow.spendBy
  split
  · rfl
  · rename_i hlast
    rw [List.getLast?_eq_none_iff] at hlast
    rw [hlast] at h
    cases h

theorem hit_of_isSpentBy {spends : List StagedSpend} (h : s.isSpentBy scope spends r = true) :
    r.spend.isConfirmed = false ∧ (r.spendsIn spends).isEmpty = false := by
  unfold isSpentBy at h
  rw [Bool.and_eq_true, Bool.and_eq_true, Bool.not_eq_true', Bool.not_eq_true'] at h
  exact ⟨h.1.2, h.2⟩

/-- What is spent is in scope. -/
theorem inScope_of_isSpentBy {spends : List StagedSpend} (h : s.isSpentBy scope spends r = true) :
    s.inScope scope r.key.address.group.wallet = true := by
  rw [isSpentBy, Bool.and_eq_true, Bool.and_eq_true] at h
  exact h.1.1

/-- The payments of a source after the spends of a batch: those of the rows that are spent, if there
are such rows of the source, and otherwise those that were there. -/
theorem filter_payments_matchSpends (s : Store) (scope : Scope) (batch : Batch)
    (source : PaymentSource) : (s.matchSpends scope batch).2.payments.filter (·.source == source) =
      if (s.ledger.filter (s.isSpentBy scope batch.spends)).any (·.source == source) then
        (((s.ledger.filter (s.isSpentBy scope batch.spends)).filter (·.source == source)).flatMap
          (·.paymentsIn batch)).foldl insertPayment []
      else s.payments.filter (·.source == source) := by
  have hkept : (s.payments.filter fun p =>
      !(s.ledger.filter (s.isSpentBy scope batch.spends)).any (·.source == p.source)).filter
        (·.source == source) =
      if (s.ledger.filter (s.isSpentBy scope batch.spends)).any (·.source == source) then []
      else s.payments.filter (·.source == source) := by
    rw [List.filter_filter]
    split
    · rename_i hany
      refine List.filter_eq_nil_iff.2 fun p _ hp => ?_
      rw [Bool.and_eq_true, beq_iff_eq] at hp
      rw [hp.1, hany] at hp
      cases hp.2
    · rename_i hany
      refine List.filter_congr fun p _ => ?_
      cases hp : p.source == source with
      | false => rw [Bool.false_and]
      | true => rw [beq_iff_eq.1 hp, Bool.eq_false_iff.2 hany]; rfl
  simp only [matchSpends]
  rw [filter_insertPayments, filter_flatMap_paymentsIn, hkept]
  split
  · rfl
  · rename_i hany
    have hnone : (s.ledger.filter (s.isSpentBy scope batch.spends)).filter (·.source == source) = [] :=
      List.filter_eq_nil_iff.2 fun r hr hsource => hany (List.any_eq_true.2 ⟨r, hr, hsource⟩)
    rw [hnone]
    rfl

/-- The payments of a row after the spends of a batch. -/
theorem paid_matchSpends (scope : Scope) (batch : Batch) (hs : s.WellFormed)
    (ho : s.OneRowPerOutput) (hr : r ∈ s.ledger) :
    (s.matchSpends scope batch).2.paid r.source =
      if s.isSpentBy scope batch.spends r then
        ((r.paymentsIn batch).foldl insertPayment []).map (·.payee)
      else s.paid r.source := by
  have hspent := filter_spent hs ho hr (s.isSpentBy scope batch.spends)
  unfold paid
  rw [filter_payments_matchSpends, hspent]
  by_cases hhit : s.isSpentBy scope batch.spends r = true
  · have hany : (s.ledger.filter (s.isSpentBy scope batch.spends)).any (·.source == r.source) = true :=
      List.any_eq_true.2 ⟨r, List.mem_filter.2 ⟨hr, hhit⟩, beq_self_eq_true r.source⟩
    rw [if_pos hany, if_pos hhit, if_pos hhit, List.flatMap_singleton]
  · -- no other row has the source
    have hany : (s.ledger.filter (s.isSpentBy scope batch.spends)).any (·.source == r.source) =
        false := by
      refine List.any_eq_false.2 fun r' hr' hsource => ?_
      have hmem : r' ∈ (s.ledger.filter (s.isSpentBy scope batch.spends)).filter
          (·.source == r.source) := List.mem_filter.2 ⟨hr', hsource⟩
      rw [hspent, if_neg hhit] at hmem
      cases hmem
    rw [hany, if_neg hhit, if_neg Bool.false_ne_true, if_neg hhit]

theorem carried_of_matchSpends (hs : s.WellFormed) (ha : s.Anchored) (ho : s.OneRowPerOutput)
    (hb : staged batch) :
    (s.matchSpends scope batch).2.Anchored ∧
      ∀ r' ∈ (s.matchSpends scope batch).2.ledger,
        Carried staged s (s.matchSpends scope batch).2 r' := by
  constructor
  · -- a payment that was kept stems from a row that was not spent
    intro p hp
    rcases mem_insertPayments hp with hp | hp
    · obtain ⟨hp, hkept⟩ := List.mem_filter.1 hp
      obtain ⟨r, hr, hsource, hsome⟩ := ha p hp
      refine ⟨r, List.mem_map.2 ⟨r, hr, if_neg fun hhit => ?_⟩, hsource, hsome⟩
      rw [Bool.not_eq_true', List.any_eq_false] at hkept
      refine hkept r (List.mem_filter.2 ⟨hr, hhit⟩) ?_
      rw [hsource, beq_self_eq_true]
    · obtain ⟨r, hr, hp⟩ := List.mem_flatMap.1 hp
      obtain ⟨hr, hhit⟩ := List.mem_filter.1 hr
      refine ⟨r.spendBy batch.spends, List.mem_map.2 ⟨r, hr, if_pos hhit⟩, ?_,
        txid_spendBy (hit_of_isSpentBy hhit).2⟩
      rw [source_of_mem_paymentsIn hp, LedgerRow.source, LedgerRow.source, (r.key_spendBy _).1,
        (r.key_spendBy _).2]
  · intro r' hr'
    obtain ⟨r, hr, rfl⟩ := List.mem_map.1 hr'
    have hpaid := paid_matchSpends scope batch hs ho hr
    split
    · rename_i hhit
      rw [if_pos hhit] at hpaid
      have hsource : (r.spendBy batch.spends).source = r.source := by
        rw [LedgerRow.source, LedgerRow.source, (r.key_spendBy _).1, (r.key_spendBy _).2]
      refine .spent hb hr hhit rfl ?_
      rw [hsource]
      exact hpaid
    · rename_i hhit
      rw [if_neg hhit] at hpaid
      exact .same hr rfl rfl (fun _ => rfl) hpaid

/-- **A write carries payments along** with the rows they stem from. -/
theorem carried_of_write (hs : s.WellFormed) (ha : s.Anchored) (ho' : s'.OneRowPerOutput)
    (h : Write staged s s') : s'.Anchored ∧ ∀ r' ∈ s'.ledger, Carried staged s s' r' := by
  have ho := oneRow_of_write hs ho' h
  rcases ledger_cases h with ⟨_, _, d, -, -, rfl⟩ | ⟨_, _, hb, rfl⟩ | ⟨hledger, hpayments, -⟩
  · exact ⟨anchored_of_record hs ha ho, carried_of_record hs ha ho ho'⟩
  · exact carried_of_matchSpends hs ha ho hb
  · refine ⟨fun p hp => ?_, fun r' hr' => ?_⟩
    · rw [hpayments] at hp
      rw [hledger]
      exact ha p hp
    · rw [hledger] at hr'
      refine .same hr' rfl rfl (fun _ => rfl) ?_
      rw [paid, paid, hpayments]

/-! ## Deleting and clearing -/

section Clear

variable {keep clear rows : LedgerRow → Bool} {ledger : List LedgerRow}

theorem anchored_of_clear
    (hledger : ledger = (s.ledger.filter keep).map fun r =>
      if clear r then { r with spend := .unspent } else r)
    (hrows : ∀ r, rows r = (clear r || !keep r)) (ha : s.Anchored) :
    ({ s with payments := s.paymentsWithout rows, ledger := ledger } : Store).Anchored := by
  subst hledger
  intro p hp
  obtain ⟨hp, hkept⟩ := List.mem_filter.1 hp
  obtain ⟨r, hr, hsource, hsome⟩ := ha p hp
  rw [Bool.not_eq_true', List.any_eq_false] at hkept
  have hrow : rows r = false := by
    cases hrow : rows r with
    | false => rfl
    | true =>
      refine absurd ?_ (hkept r hr)
      rw [hrow, hsource, beq_self_eq_true, Bool.and_true]
  rw [hrows, Bool.or_eq_false_iff, Bool.not_eq_false'] at hrow
  refine ⟨r, List.mem_map.2 ⟨r, List.mem_filter.2 ⟨hr, hrow.2⟩, ?_⟩, hsource, hsome⟩
  rw [hrow.1]
  rfl

/-- The payments of a row that is not concerned stay. -/
theorem paid_paymentsWithout (ho : s.OneRowPerOutput) (hr : r ∈ s.ledger) (hrow : rows r = false) :
    ({ s with payments := s.paymentsWithout rows, ledger := ledger } : Store).paid r.source =
      s.paid r.source := by
  have hfilter : (s.paymentsWithout rows).filter (·.source == r.source) =
      s.payments.filter (·.source == r.source) := by
    unfold paymentsWithout
    rw [List.filter_filter]
    refine List.filter_congr fun p _ => ?_
    by_cases hp : p.source = r.source
    · have hany : (s.ledger.any fun r => rows r && r.source == p.source) = false := by
        rw [List.any_eq_false]
        intro r₀ hr₀ hhit
        rw [Bool.and_eq_true, beq_iff_eq] at hhit
        rw [ho.eq_of_source hr₀ hr (hhit.2.trans hp), hrow] at hhit
        exact Bool.false_ne_true hhit.1
      rw [hany, Bool.not_false, Bool.and_true]
    · rw [beq_false_of_ne hp, Bool.false_and]
  rw [paid, hfilter, paid]

/-- Deleting rows and clearing spends, with the payments of the rows concerned, leaves the payments
of all other rows. -/
theorem carried_of_clear
    (hledger : ledger = (s.ledger.filter keep).map fun r =>
      if clear r then { r with spend := .unspent } else r)
    (hrows : ∀ r, rows r = (clear r || !keep r)) (ho : s.OneRowPerOutput) :
    let s' := { s with payments := s.paymentsWithout rows, ledger := ledger }
    ∀ r' ∈ ledger, (r'.spend = .unspent ∧ s'.paid r'.source = []) ∨
      (r' ∈ s.ledger ∧ s'.paid r'.source = s.paid r'.source) := by
  intro s' r' hr'
  subst hledger
  obtain ⟨r, hr, rfl⟩ := List.mem_map.1 hr'
  obtain ⟨hr, hkeep⟩ := List.mem_filter.1 hr
  split
  · rename_i hclear
    refine .inl ⟨rfl, paid_eq_nil fun p hp hsource => ?_⟩
    have hkept := (List.mem_filter.1 hp).2
    rw [Bool.not_eq_true', List.any_eq_false] at hkept
    refine hkept r hr ?_
    have hsource' : r.source = p.source := hsource.symm
    rw [hrows, hclear, hsource', beq_self_eq_true]
    rfl
  · rename_i hclear
    have hrow : rows r = false := by
      rw [hrows, hkeep, Bool.not_true, Bool.or_false]
      simpa using hclear
    exact .inr ⟨hr, paid_paymentsWithout ho hr hrow⟩

theorem oneRow_of_clear
    (hledger : ledger = (s.ledger.filter keep).map fun r =>
      if clear r then { r with spend := .unspent } else r) (payments : List PaymentRow)
    (ho : s.OneRowPerOutput) :
    ({ s with payments := payments, ledger := ledger } : Store).OneRowPerOutput := by
  subst hledger
  intro r hr r' hr' htxid hvout
  obtain ⟨q, hq, rfl⟩ := List.mem_map.1 hr
  obtain ⟨q', hq', rfl⟩ := List.mem_map.1 hr'
  have hkey : ∀ r : LedgerRow, (if clear r then { r with spend := .unspent } else r).key = r.key := by
    intro r
    split <;> rfl
  simp only [hkey] at htxid hvout
  rw [ho q (List.mem_filter.1 hq).1 q' (List.mem_filter.1 hq').1 htxid hvout]

end Clear

/-- What a rollback does to rows and payments. -/
theorem carried_of_undoAbove (ha : s.Anchored) (ho : s.OneRowPerOutput) (wallet : Int)
    (bound : UInt32) : (s.undoAbove wallet bound).Anchored ∧
      ∀ r' ∈ (s.undoAbove wallet bound).ledger,
        (r'.spend = .unspent ∧ (s.undoAbove wallet bound).paid r'.source = []) ∨
          (r' ∈ s.ledger ∧ (s.undoAbove wallet bound).paid r'.source = s.paid r'.source) := by
  have hrows : ∀ r : LedgerRow, ((r.key.address.group.wallet == wallet) &&
      (isAbove bound r.spend.height || isAbove bound r.deposit.height)) =
        (((r.key.address.group.wallet == wallet) && isAbove bound r.spend.height) ||
          !!((r.key.address.group.wallet == wallet) && isAbove bound r.deposit.height)) := by
    intro r
    rw [Bool.not_not, Bool.and_or_distrib_left]
  exact ⟨anchored_of_clear rfl hrows ha, carried_of_clear rfl hrows ho⟩

/-- What a removal does to rows and payments. -/
theorem carried_of_dropUnconfirmed (ha : s.Anchored) (ho : s.OneRowPerOutput) (wallet : Int)
    (txid : Hash256) : (s.dropUnconfirmed wallet txid).2.Anchored ∧
      ∀ r' ∈ (s.dropUnconfirmed wallet txid).2.ledger,
        (r'.spend = .unspent ∧ (s.dropUnconfirmed wallet txid).2.paid r'.source = []) ∨
          (r' ∈ s.ledger ∧
            (s.dropUnconfirmed wallet txid).2.paid r'.source = s.paid r'.source) := by
  refine ⟨anchored_of_clear rfl (fun r => ?_) ha, carried_of_clear rfl (fun r => ?_) ho⟩
  · simp only [Bool.not_not]
  · simp only [Bool.not_not]

theorem anchored_of_writes (hs : s.WellFormed) (ha : s.Anchored) (ho' : s'.OneRowPerOutput)
    (h : Writes staged s s') : s'.Anchored := by
  induction h with
  | refl => exact ha
  | tail hwrites hwrite ih =>
    have hm := wellFormed_of_writes hs hwrites
    exact (carried_of_write hm (ih (oneRow_of_write hm ho' hwrite)) ho' hwrite).1

theorem anchored_of_change (hs : s.WellFormed) (ho : s.OneRowPerOutput)
    (ho' : s'.OneRowPerOutput) (ha : s.Anchored) (h : Change staged s s') : s'.Anchored := by
  cases h with
  | written writes => exact anchored_of_writes hs ha ho' writes
  | undone held above build => exact (carried_of_undoAbove ha ho _ _).1
  | dropped held => exact (carried_of_dropUnconfirmed ha ho _ _).1

end Store

namespace Indexer

/-- Payments stem from spent rows, in every state of a history without two rows of one output. -/
theorem anchored_of_history {calls : List Call} {states : List Indexer} (hist : History calls states)
    (hrows : ∀ ix ∈ states, ix.store.OneRowPerOutput) :
    ∀ ix ∈ states, ∀ network, (ix.storeOf network).Anchored := by
  have hinv := @History.store_induction (fun _ => True) (fun s => s.WellFormed ∧ s.Anchored)
    Store.OneRowPerOutput calls states hist (fun _ _ _ _ => trivial) hrows
    ⟨.empty, fun p hp => nomatch hp⟩ fun s s' ho ho' ⟨hs, ha⟩ h =>
      ⟨Store.wellFormed_of_change hs h, Store.anchored_of_change hs ho ho' ha h⟩
  intro ix hix network
  exact (hinv ix hix network).2

end Indexer

end WalletLedger
