import LfWaap.LearningData.CsicToPackets
import LfWaap.Words.Positions

/-!
# The balanced sampler

`learning_data.csic_to_packets.iter_balanced_packets` counts what it has yielded of each
class, and stops once both counts have reached their quota. What it yields can be said
without a loop: the records that are among the first `k` normal ones or among the first
`k` anomalous ones of the file, in the order of the file
(`LearningData.iterBalancedPackets_selects`).

The invariant of the loop is that each count is what is missing from its quota
(`LearningData.balancedLoop_eq`). The loop does not ask for a record after the one that
fills the second quota: whatever the file holds from there on, and whether or not reading
on would raise, the sample is the same.
-/

namespace LearningData

open Python Words

variable [Interpreter]

/-! ### The loop -/

theorem PacketRecord.not_isAnomalous_of_isNormal {record : PacketRecord}
    (h : record.isNormal = true) : record.isAnomalous = false := by
  by_contra hattack
  rw [Bool.not_eq_false] at hattack
  rw [PacketRecord.not_isNormal_of_isAnomalous hattack] at h
  exact Bool.false_ne_true h

/-- **One step of the loop**: the record is yielded if the quota of its class is open, which
it then counts for; and the loop ends if no quota is open any more. -/
theorem balancedLoop_cons (k : ℕ) (raised : Option PyError) (record : PacketRecord)
    (records : List PacketRecord) (normal attack : ℕ) :
    balancedLoop k raised (record :: records) normal attack =
      let takesNormal := record.isNormal && decide (normal < k)
      let takesAttack := record.isAnomalous && decide (attack < k)
      let rest :=
        if k ≤ normal + takesNormal.toNat ∧ k ≤ attack + takesAttack.toNat then ⟨[], none⟩
        else balancedLoop k raised records (normal + takesNormal.toNat)
          (attack + takesAttack.toNat)
      ⟨(if (takesNormal || takesAttack) = true then [record] else []) ++ rest.yields,
        rest.raised⟩ := by
  rw [balancedLoop]
  by_cases hnormal : record.isNormal = true ∧ normal < k
  · have hattack := PacketRecord.not_isAnomalous_of_isNormal hnormal.1
    rw [if_pos hnormal, hnormal.1, decide_eq_true hnormal.2, hattack]
    simp only [Bool.and_true, Bool.toNat_true, Bool.false_and, Bool.toNat_false, Bool.or_false,
      Nat.add_zero, if_true]
    split_ifs <;> rfl
  · rw [if_neg hnormal, show (record.isNormal && decide (normal < k)) = false by
      rw [← Bool.not_eq_true, Bool.and_eq_true, decide_eq_true_iff]
      exact hnormal]
    by_cases hattack : record.isAnomalous = true ∧ attack < k
    · rw [if_pos hattack, hattack.1, decide_eq_true hattack.2]
      simp only [Bool.and_true, Bool.toNat_true, Bool.toNat_false, Bool.false_or, Nat.add_zero,
        if_true]
      split_ifs <;> rfl
    · rw [if_neg hattack, show (record.isAnomalous && decide (attack < k)) = false by
        rw [← Bool.not_eq_true, Bool.and_eq_true, decide_eq_true_iff]
        exact hattack]
      rfl

omit [Interpreter] in
/-- A quota is open as long as something is missing from it. -/
theorem missing_pos (k count : ℕ) (b : Bool) :
    (b && decide (0 < k - count)) = (b && decide (count < k)) := by
  have hiff : 0 < k - count ↔ count < k := by omega
  simp only [hiff]

omit [Interpreter] in
/-- What is missing from a quota after a record that may be taken. -/
theorem missing_taken (k count : ℕ) (b : Bool) :
    k - count - b.toNat = k - (count + (b && decide (count < k)).toNat) := by
  by_cases hlt : count < k
  · rw [decide_eq_true hlt, Bool.and_true]
    omega
  · rw [decide_eq_false hlt, Bool.and_false]
    show _ = k - (count + 0)
    omega

omit [Interpreter] in
theorem missing_le_countP (k count : ℕ) (p : PacketRecord → Bool) (record : PacketRecord)
    (records : List PacketRecord) :
    k - count ≤ (record :: records).countP p ↔
      k - (count + (p record && decide (count < k)).toNat) ≤ records.countP p := by
  rw [← missing_taken, List.countP_cons]
  cases p record <;> simp

/-- **The loop** selects the first records of each class, as many as are missing from its
quota, and raises where the records do unless both quotas are filled before. -/
theorem balancedLoop_eq {k : ℕ} (raised : Option PyError) (records : List PacketRecord)
    {normal attack : ℕ} (hopen : ¬(k ≤ normal ∧ k ≤ attack)) :
    balancedLoop k raised records normal attack =
      ⟨firstOfBoth (k - normal) (k - attack) PacketRecord.isNormal PacketRecord.isAnomalous records,
        if k - normal ≤ records.countP PacketRecord.isNormal ∧
            k - attack ≤ records.countP PacketRecord.isAnomalous then none else raised⟩ := by
  induction records generalizing normal attack with
  | nil =>
    have hmissing : ¬(k - normal ≤ 0 ∧ k - attack ≤ 0) := by omega
    rw [balancedLoop, List.countP_nil, List.countP_nil, if_neg hmissing]
    rfl
  | cons record records ih =>
    rw [balancedLoop_cons, firstOfBoth_cons, missing_pos, missing_pos, missing_taken, missing_taken]
    simp only [missing_le_countP]
    by_cases hfull : k ≤ normal + (record.isNormal && decide (normal < k)).toNat ∧
        k ≤ attack + (record.isAnomalous && decide (attack < k)).toNat
    · have hnone : 0 ≤ records.countP PacketRecord.isNormal ∧
          0 ≤ records.countP PacketRecord.isAnomalous := ⟨Nat.zero_le _, Nat.zero_le _⟩
      rw [if_pos hfull, Nat.sub_eq_zero_of_le hfull.1, Nat.sub_eq_zero_of_le hfull.2,
        firstOfBoth_zero, if_pos hnone]
    · rw [if_neg hfull, ih hfull]

/-! ### The sample -/

omit [Interpreter] in
/-- The quota of each class under a limit. -/
def quota (limit : ℤ) : ℕ := (max 1 (limit / 2)).toNat

omit [Interpreter] in
theorem one_le_quota (limit : ℤ) : 1 ≤ quota limit := by
  rw [quota]
  omega

/-- Both quotas are filled by records. -/
def QuotasFull (limit : ℤ) (records : List PacketRecord) : Prop :=
  quota limit ≤ records.countP PacketRecord.isNormal ∧
    quota limit ≤ records.countP PacketRecord.isAnomalous

instance (limit : ℤ) (records : List PacketRecord) : Decidable (QuotasFull limit records) :=
  inferInstanceAs (Decidable (_ ∧ _))

/-- What the sampler yields, and what it raises. -/
theorem iterBalancedPackets_eq (csv : CsvFile) (limit : ℤ) :
    iterBalancedPackets csv (some limit) =
      ⟨firstOfBoth (quota limit) (quota limit) PacketRecord.isNormal PacketRecord.isAnomalous
          (iterPackets csv).yields,
        if QuotasFull limit (iterPackets csv).yields then none else (iterPackets csv).raised⟩ := by
  have hpos := one_le_quota limit
  exact balancedLoop_eq (iterPackets csv).raised (iterPackets csv).yields (by omega)

/-- **Nothing is read past the record that fills the second quota**: the sample is one of
the records up to there, and nothing is raised. -/
theorem iterBalancedPackets_of_full (csv : CsvFile) {limit : ℤ} {n : ℕ}
    (hfull : QuotasFull limit ((iterPackets csv).yields.take n)) :
    iterBalancedPackets csv (some limit) =
      ⟨firstOfBoth (quota limit) (quota limit) PacketRecord.isNormal PacketRecord.isAnomalous
        ((iterPackets csv).yields.take n), none⟩ := by
  have hsub : ((iterPackets csv).yields.take n).Sublist (iterPackets csv).yields :=
    List.take_sublist n _
  have hall : QuotasFull limit (iterPackets csv).yields :=
    ⟨hfull.1.trans hsub.countP_le, hfull.2.trans hsub.countP_le⟩
  rw [iterBalancedPackets_eq, if_pos hall]
  nth_rewrite 1 [← List.take_append_drop n (iterPackets csv).yields]
  rw [firstOfBoth_append hfull.1 hfull.2]

/-- **The balanced sampler selects exactly the first records of each class**, for every file
and every limit: in the order of the file, the records that are among the first `k` normal
ones or among the first `k` anomalous ones. So the sample holds as many of each class as
there are, up to `k`; no record without a label, and none twice; no more than the limit if
that is two at least; and no record is read past the one that fills the second quota. -/
theorem iterBalancedPackets_selects (csv : CsvFile) (limit : ℤ) :
    let k := (max 1 (limit / 2)).toNat
    let packets := (iterPackets csv).yields
    let sample := iterBalancedPackets csv (some limit)
    sample.yields = atPositions (fun i => amongFirst k PacketRecord.isNormal packets i ||
        amongFirst k PacketRecord.isAnomalous packets i) packets ∧
      sample.yields.countP PacketRecord.isNormal =
        min k (packets.countP PacketRecord.isNormal) ∧
      sample.yields.countP PacketRecord.isAnomalous =
        min k (packets.countP PacketRecord.isAnomalous) ∧
      (∀ record ∈ sample.yields, record.isNormal = true ∨ record.isAnomalous = true) ∧
      sample.yields.Sublist packets ∧
      (2 ≤ limit → (sample.yields.length : ℤ) ≤ limit) ∧
      ∀ n, k ≤ (packets.take n).countP PacketRecord.isNormal →
        k ≤ (packets.take n).countP PacketRecord.isAnomalous →
        sample.raised = none ∧ sample.yields.Sublist (packets.take n) ∧
          ∀ csv', (iterPackets csv').yields.take n = packets.take n →
            iterBalancedPackets csv' (some limit) = sample := by
  intro k packets sample
  have hsample : sample.yields = firstOfBoth k k PacketRecord.isNormal PacketRecord.isAnomalous
      packets := congrArg Generator.yields (iterBalancedPackets_eq csv limit)
  have hnormal : sample.yields.countP PacketRecord.isNormal =
      min k (packets.countP PacketRecord.isNormal) := by
    rw [hsample, countP_firstOfBoth fun _ => PacketRecord.not_isAnomalous_of_isNormal]
  have hattack : sample.yields.countP PacketRecord.isAnomalous =
      min k (packets.countP PacketRecord.isAnomalous) := by
    rw [hsample, firstOfBoth_comm,
      countP_firstOfBoth fun _ => PacketRecord.not_isNormal_of_isAnomalous]
  have hlabel : ∀ record ∈ sample.yields, record.isNormal = true ∨ record.isAnomalous = true := by
    intro record hmem
    rw [hsample] at hmem
    exact of_mem_firstOfBoth hmem
  refine ⟨hsample, hnormal, hattack, hlabel, hsample ▸ firstOfBoth_sublist packets, ?_, ?_⟩
  · intro hlimit
    have hlen := length_le_countP_add_countP hlabel
    have hk : (k : ℤ) = limit / 2 := by
      show ((max 1 (limit / 2)).toNat : ℤ) = limit / 2
      omega
    omega
  · intro n hn ha
    have hquotas : QuotasFull limit (packets.take n) := ⟨hn, ha⟩
    have hfull := iterBalancedPackets_of_full csv hquotas
    refine ⟨congrArg Generator.raised hfull, ?_, fun csv' hsame => ?_⟩
    · rw [show sample.yields = _ from congrArg Generator.yields hfull]
      exact firstOfBoth_sublist _
    · have hfull' := iterBalancedPackets_of_full csv' (hsame ▸ hquotas)
      rw [hfull', hsame]
      exact hfull.symm

end LearningData
