import Mathlib.Data.Nat.ModEq
import Mathlib.Tactic.GCongr
import Mathlib.Tactic.Ring

/-!
# Token buckets

A bucket of tokens that whole units of time refill up to its burst, and what it lets pass in a
window of time. What `d` units bring is a function `refill d`, which may be less than `rate * d`.
-/

namespace Systems

/-- The tokens that are left, and the time from which the next ones are counted. -/
structure TokenBucket where
  tokens : ℕ
  last : ℕ

namespace TokenBucket

section

variable (burst unit : ℕ) (refill : ℕ → ℕ)

/-- The bucket at a time, before a token is taken. -/
def refilled (s : TokenBucket) (now : ℕ) : TokenBucket :=
  if 0 < refill ((now - s.last) / unit) then
    ⟨min (s.tokens + refill ((now - s.last) / unit)) burst, now⟩
  else s

/-- A call passes if there is a token, which it takes. -/
def call (s : TokenBucket) (now : ℕ) : Bool × TokenBucket :=
  let s := s.refilled burst unit refill now
  (decide (0 < s.tokens), { s with tokens := s.tokens - 1 })

end

variable {burst unit rate start passed now clock : ℕ} {refill : ℕ → ℕ} {s : TokenBucket}

/-- A call leaves a bucket that is not full. -/
theorem tokens_call_lt (unit : ℕ) (refill : ℕ → ℕ) (now : ℕ) (hburst : 0 < burst)
    (h : s.tokens ≤ burst) :
    (s.call burst unit refill now).2.tokens < burst := by
  have hfull : (s.refilled burst unit refill now).tokens ≤ burst := by
    rw [refilled]
    split
    · exact min_le_right _ _
    · exact h
  exact lt_of_le_of_lt (Nat.sub_le_sub_right hfull 1) (Nat.sub_lt hburst Nat.one_pos)

/-- Further units bring at most `rate` tokens each. -/
structure Limited (rate : ℕ) (refill : ℕ → ℕ) : Prop where
  zero : refill 0 = 0
  add : ∀ d e, refill (d + e) ≤ refill d + rate * e

theorem Limited.le (h : Limited rate refill) (d : ℕ) : refill d ≤ rate * d := by
  have hadd := h.add 0 d
  rwa [Nat.zero_add, h.zero, Nat.zero_add] at hadd

/-- What is left of the bucket with what has passed since `start`. The tokens are still those from
before `start` until the bucket is refilled, and no call since `start` has seen tokens to add. -/
structure Spent (burst unit rate : ℕ) (refill : ℕ → ℕ) (start passed clock : ℕ)
    (s : TokenBucket) : Prop where
  tokens_le : s.tokens ≤ burst
  last_le : s.last ≤ clock
  before : s.last < start → passed + s.tokens ≤ burst ∧
    (passed = 0 ∨ ∃ t, start ≤ t ∧ t ≤ clock ∧ refill ((t - s.last) / unit) = 0)
  since : start ≤ s.last → passed + s.tokens ≤ burst + rate * ((s.last - start) / unit + 1)

/-- A full bucket from which nothing has passed. -/
theorem spent_full (start clock : ℕ) :
    Spent burst unit rate refill start 0 clock ⟨burst, clock⟩ where
  tokens_le := le_rfl
  last_le := le_rfl
  before _ := ⟨(Nat.zero_add burst).le, .inl rfl⟩
  since _ := by
    rw [Nat.zero_add]
    exact Nat.le_add_right _ _

/-- The units between two times are at least those of the two parts. -/
theorem div_sub_le {t u v : ℕ} (htu : t ≤ u) (huv : u ≤ v) :
    (u - t) / unit + (v - u) / unit ≤ (v - t) / unit := by
  rw [show v - t = (u - t) + (v - u) by omega]
  exact Nat.div_add_div_le_add_div

/-- They are at most one more. -/
theorem div_sub_le_succ {t u v : ℕ} (htu : t ≤ u) (huv : u ≤ v) :
    (v - t) / unit ≤ (u - t) / unit + (v - u) / unit + 1 := by
  rw [show v - t = (u - t) + (v - u) by omega]
  exact Nat.add_div_le_div_add_div_add_one _ _ _

namespace Spent

/-- What has passed since `start` is bounded by the time since then. -/
theorem passed_le (h : Spent burst unit rate refill start passed clock s) :
    passed ≤ burst + rate * ((clock - start) / unit + 1) := by
  by_cases hlast : start ≤ s.last
  · have hsince := h.since hlast
    have hunits : (s.last - start) / unit ≤ (clock - start) / unit :=
      Nat.div_le_div_right (Nat.sub_le_sub_right h.last_le start)
    have hrate : rate * ((s.last - start) / unit + 1) ≤ rate * ((clock - start) / unit + 1) :=
      Nat.mul_le_mul_left rate (Nat.succ_le_succ hunits)
    omega
  · have hbefore := (h.before (Nat.lt_of_not_le hlast)).1
    omega

theorem mono (h : Spent burst unit rate refill start passed clock s) (hle : clock ≤ now) :
    Spent burst unit rate refill start passed now s where
  tokens_le := h.tokens_le
  last_le := h.last_le.trans hle
  before hlt := by
    obtain ⟨hsum, hzero | ⟨t, hst, htc, hnone⟩⟩ := h.before hlt
    · exact ⟨hsum, .inl hzero⟩
    · exact ⟨hsum, .inr ⟨t, hst, htc.trans hle, hnone⟩⟩
  since := h.since

/-- The units of a bucket that was refilled since `start` before add up. -/
theorem since_of_since (h : Spent burst unit rate refill start passed clock s)
    (hlimited : Limited rate refill) (hlast : s.last ≤ now) (hstart : start ≤ s.last) :
    passed + min (s.tokens + refill ((now - s.last) / unit)) burst ≤
      burst + rate * ((now - start) / unit + 1) := by
  generalize hd : (now - s.last) / unit = d
  have hsince := h.since hstart
  have hbring := hlimited.le d
  have hunits : (s.last - start) / unit + d ≤ (now - start) / unit := by
    rw [← hd]
    exact div_sub_le hstart hlast
  calc passed + min (s.tokens + refill d) burst
      ≤ passed + s.tokens + refill d := by omega
    _ ≤ burst + rate * ((s.last - start) / unit + 1) + rate * d :=
        Nat.add_le_add hsince hbring
    _ = burst + rate * ((s.last - start) / unit + d + 1) := by ring
    _ ≤ burst + rate * ((now - start) / unit + 1) := by gcongr

/-- A bucket that had nothing to add at a time since `start` gets tokens only for the units from
there on. -/
theorem refill_le_of_none (hlimited : Limited rate refill) {t : ℕ} (hstart : start ≤ t)
    (hlast : s.last ≤ t) (ht : t ≤ now) (hnone : refill ((t - s.last) / unit) = 0) :
    refill ((now - s.last) / unit) ≤ rate * ((now - start) / unit + 1) := by
  obtain ⟨e, he⟩ : ∃ e, (now - s.last) / unit = (t - s.last) / unit + e :=
    Nat.exists_eq_add_of_le (Nat.div_le_div_right (by omega))
  have hunits : e ≤ (now - start) / unit + 1 := by
    have hsplit : (now - s.last) / unit ≤ (t - s.last) / unit + (now - t) / unit + 1 :=
      div_sub_le_succ hlast ht
    have hwindow : (now - t) / unit ≤ (now - start) / unit := Nat.div_le_div_right (by omega)
    omega
  calc refill ((now - s.last) / unit)
      ≤ refill ((t - s.last) / unit) + rate * e := he ▸ hlimited.add _ e
    _ = rate * e := by rw [hnone, Nat.zero_add]
    _ ≤ rate * ((now - start) / unit + 1) := Nat.mul_le_mul_left rate hunits

/-- Refilling the bucket at a later time. -/
theorem refilled (h : Spent burst unit rate refill start passed clock s)
    (hlimited : Limited rate refill) (hnow : clock ≤ now)
    (hpassed : now < start → passed = 0) :
    Spent burst unit rate refill start passed now (s.refilled burst unit refill now) := by
  rw [TokenBucket.refilled]
  have hlast := h.last_le
  by_cases hrefill : 0 < refill ((now - s.last) / unit)
  · rw [if_pos hrefill]
    refine ⟨min_le_right _ _, le_rfl, ?_, ?_⟩
    · intro hlt
      have hzero := hpassed hlt
      exact ⟨by rw [hzero, Nat.zero_add]; exact min_le_right _ _, .inl hzero⟩
    · intro hge
      simp only at hge ⊢
      by_cases hstart : start ≤ s.last
      · exact h.since_of_since hlimited (hlast.trans hnow) hstart
      · obtain ⟨hbefore, hzero | ⟨t, hst, htc, hnone⟩⟩ := h.before (Nat.lt_of_not_le hstart)
        · rw [hzero]
          omega
        · have hbring := refill_le_of_none hlimited hst (by omega) (htc.trans hnow) hnone
          omega
  · rw [if_neg hrefill]
    refine ⟨h.tokens_le, hlast.trans hnow, ?_, h.since⟩
    intro hlt
    refine ⟨(h.before hlt).1, ?_⟩
    by_cases hstart : start ≤ now
    · exact .inr ⟨now, hstart, le_rfl, Nat.eq_zero_of_not_pos hrefill⟩
    · exact .inl (hpassed (Nat.lt_of_not_le hstart))

/-- A bucket that was not refilled at a time had no tokens to come. -/
theorem refill_eq_zero (burst unit : ℕ) (refill : ℕ → ℕ) (s : TokenBucket) (now : ℕ)
    (hlast : (s.refilled burst unit refill now).last < now) :
    refill ((now - (s.refilled burst unit refill now).last) / unit) = 0 := by
  rw [TokenBucket.refilled] at hlast ⊢
  split at hlast
  · exact absurd hlast (Nat.lt_irrefl _)
  · next hnone =>
    rw [if_neg hnone]
    exact Nat.eq_zero_of_not_pos hnone

/-- A call takes the token that lets it pass. -/
theorem call (h : Spent burst unit rate refill start passed clock s)
    (hlimited : Limited rate refill) (hnow : clock ≤ now)
    (hpassed : now < start → passed = 0) :
    Spent burst unit rate refill start
      (passed + if (s.call burst unit refill now).1 = true ∧ start ≤ now then 1 else 0) now
      (s.call burst unit refill now).2 := by
  have hfull := h.refilled hlimited hnow hpassed
  have hnone := refill_eq_zero burst unit refill s now
  rw [TokenBucket.call]
  generalize s.refilled burst unit refill now = r at hfull hnone ⊢
  have htokens := hfull.tokens_le
  refine ⟨(Nat.sub_le _ _).trans htokens, hfull.last_le, ?_, ?_⟩
  · intro hlt
    obtain ⟨hsum, hzero⟩ := hfull.before hlt
    by_cases hstart : start ≤ now
    · refine ⟨?_, .inr ⟨now, hstart, le_rfl, hnone (Nat.lt_of_lt_of_le hlt hstart)⟩⟩
      simp only [decide_eq_true_eq]
      split <;> omega
    · rw [if_neg fun hpass => hstart hpass.2]
      exact ⟨(Nat.add_le_add_left (Nat.sub_le _ _) _).trans hsum, hzero⟩
  · intro hge
    have hsum := hfull.since hge
    simp only [decide_eq_true_eq]
    split <;> omega

end Spent

end TokenBucket

end Systems
