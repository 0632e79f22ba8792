import Retorrent.Dht.Node
import Retorrent.Systems.TokenBucket
import Retorrent.Systems.Transition

/-!
# The rate limiter for each address

`PerIpRateLimiter`: a bucket of tokens for every address that has sent a query. What passes in a
window of time is bounded, and the addresses do not affect each other. An entry stays for good: a
call always leaves its bucket less than full, and `gc` only drops full ones.
-/

namespace Retorrent.Dht

open Rust Systems

/-- `PER_IP_LIMIT_PER_SEC`. -/
def perIpLimitPerSec : ℕ := 50

/-- `PER_IP_BURST`. -/
def perIpBurst : ℕ := 100

/-- The nanoseconds of a second. -/
def nanosPerSec : ℕ := 1_000_000_000

structure PerIpState where
  tokens : ℕ
  lastRefillNs : ℕ
  deriving DecidableEq

/-- A `PerIpRateLimiter`. -/
abbrev PerIpRateLimiter := HashMap IpAddr PerIpState

namespace PerIpState

/-- What `or_insert_with` inserts. -/
def new (now : ℕ) : PerIpState := ⟨perIpBurst, now⟩

/-- `(elapsed_ns / 1_000_000_000) as u32 * PER_IP_LIMIT_PER_SEC`. -/
def refill (b : Build) (s : PerIpState) (now : ℕ) : Res ℕ :=
  b.mul 32 ((now - s.lastRefillNs) / nanosPerSec % 2 ^ 32) perIpLimitPerSec

/-- The tokens are added up to the burst. -/
def refilled (s : PerIpState) (refill now : ℕ) : PerIpState :=
  if 0 < refill then ⟨min (min (s.tokens + refill) (2 ^ 32 - 1)) perIpBurst, now⟩ else s

/-- The part of `allow` that works on the entry of the address. -/
def allow (b : Build) (s : PerIpState) (now : ℕ) : Res (Bool × PerIpState) := do
  let refill ← s.refill b now
  let s := s.refilled refill now
  if 0 < s.tokens then return (true, { s with tokens := s.tokens - 1 })
  else return (false, s)

/-- The entries that `gc` drops. -/
def isIdle (s : PerIpState) (now : ℕ) : Bool :=
  perIpBurst ≤ s.tokens && 300_000_000_000 < now - s.lastRefillNs

end PerIpState

namespace PerIpRateLimiter

/-- `allow`. The clock is read once more for a new entry, before `now`. -/
def allow (b : Build) (l : PerIpRateLimiter) (addr : SocketAddr) (created now : ℕ) :
    Res (Bool × PerIpRateLimiter) := do
  let (granted, entry) ← ((l.lookup addr.ip).getD (.new created)).allow b now
  return (granted, l.insert addr.ip entry)

/-- `gc`, where `clock` is what `now_ns` gives at each entry. -/
def gc (l : PerIpRateLimiter) (clock : IpAddr → ℕ) : PerIpRateLimiter :=
  (l.entries.filter fun e => e.2.isIdle (clock e.1)).foldl (fun l e => l.erase e.1) l

end PerIpRateLimiter

/-- An answer of `allow`. -/
structure LimiterAnswer where
  ip : IpAddr
  time : ℕ
  granted : Bool
  deriving DecidableEq

/-- A limiter with the time of the last call of `allow` and the answers so far. -/
structure LimiterHistory where
  limiter : PerIpRateLimiter
  clock : ℕ
  answers : List LimiterAnswer

inductive LimiterEvent where
  | allow (addr : SocketAddr) (created now : ℕ)
  | gc (clock : IpAddr → ℕ)

/-- The event can change the entry of the address. -/
def LimiterEvent.concerns (ip : IpAddr) : LimiterEvent → Bool
  | .allow addr _ _ => addr.ip = ip
  | .gc _ => true

namespace LimiterHistory

def start : LimiterHistory := ⟨∅, 0, []⟩

def next (b : Build) (h : LimiterHistory) : LimiterEvent → Option LimiterHistory
  | .allow addr created now =>
    if h.clock ≤ created ∧ created ≤ now then do
      let (granted, l) ← (PerIpRateLimiter.allow b h.limiter addr created now).toOption
      return ⟨l, now, h.answers ++ [⟨addr.ip, now, granted⟩]⟩
    else none
  | .gc clock => some { h with limiter := PerIpRateLimiter.gc h.limiter clock }

/-- The answers to one address. -/
def answersTo (h : LimiterHistory) (ip : IpAddr) : List LimiterAnswer :=
  h.answers.filter fun a => a.ip = ip

/-- How many calls of an address have passed in a window of time. -/
def granted (h : LimiterHistory) (ip : IpAddr) (t₁ t₂ : ℕ) : ℕ :=
  h.answers.countP fun a => a.ip = ip ∧ a.granted ∧ t₁ ≤ a.time ∧ a.time ≤ t₂

end LimiterHistory

/-- The runs of a limiter in which the clock does not go back. -/
def perIpLimiter (b : Build) : System LimiterHistory LimiterEvent where
  init h := h = .start
  step h e h' := h.next b e = some h'

namespace PerIpState

variable {b : Build} {s s' : PerIpState} {now : ℕ} {granted : Bool}

/-- What so many seconds bring. -/
def perSecs (d : ℕ) : ℕ := d * perIpLimitPerSec % 2 ^ 32

theorem limited_perSecs : TokenBucket.Limited perIpLimitPerSec perSecs where
  zero := rfl
  add d e := by
    rw [perSecs, perSecs, Nat.add_mul, ← Nat.mod_add_mod, Nat.mul_comm perIpLimitPerSec e]
    exact Nat.mod_le _ _

theorem refill_eq_ok {refill : ℕ} (h : s.refill b now = .ok refill) :
    refill = perSecs ((now - s.lastRefillNs) / nanosPerSec) := by
  rw [perSecs, ← Nat.mod_mul_mod]
  unfold PerIpState.refill Build.mul at h
  split at h
  · next hlt =>
    obtain rfl := Outcome.ok.inj h
    exact (Nat.mod_eq_of_lt hlt).symm
  · cases b with
    | debug => simp at h
    | release => exact (Outcome.ok.inj h).symm

/-- The entry as a bucket. -/
def bucket (s : PerIpState) : TokenBucket := ⟨s.tokens, s.lastRefillNs⟩

theorem bucket_refilled (s : PerIpState) (now : ℕ) :
    (s.refilled (perSecs ((now - s.lastRefillNs) / nanosPerSec)) now).bucket =
      s.bucket.refilled perIpBurst nanosPerSec perSecs now := by
  rw [refilled, TokenBucket.refilled, apply_ite bucket]
  congr 1
  rw [bucket, TokenBucket.mk.injEq]
  refine ⟨?_, rfl⟩
  show min (min _ (2 ^ 32 - 1)) perIpBurst = min _ perIpBurst
  rw [min_assoc, min_eq_right (by decide : perIpBurst ≤ 2 ^ 32 - 1)]
  rfl

/-- A call takes a token from the bucket. -/
theorem allow_eq_ok (h : s.allow b now = .ok (granted, s')) :
    (granted, s'.bucket) = s.bucket.call perIpBurst nanosPerSec perSecs now := by
  obtain ⟨refill, hrefill, h⟩ := Outcome.bind_eq_ok.mp h
  rw [TokenBucket.call, ← bucket_refilled, ← refill_eq_ok hrefill]
  simp only at h
  generalize s.refilled refill now = r at h ⊢
  split at h
  · next hpos =>
    obtain ⟨rfl, rfl⟩ := Prod.mk.inj (Outcome.ok.inj h)
    exact Prod.ext (decide_eq_true hpos).symm rfl
  · next hzero =>
    obtain ⟨rfl, rfl⟩ := Prod.mk.inj (Outcome.ok.inj h)
    have htokens : r.tokens - 1 = r.tokens := by omega
    refine Prod.ext (decide_eq_false hzero).symm ?_
    show r.bucket = ⟨r.tokens - 1, r.lastRefillNs⟩
    rw [htokens, bucket]

/-- A call leaves the bucket less than full. -/
theorem tokens_lt_of_allow (h : s.allow b now = .ok (granted, s')) (hs : s.tokens ≤ perIpBurst) :
    s'.tokens < perIpBurst := by
  have hburst : 0 < perIpBurst := by decide
  have hlt := TokenBucket.tokens_call_lt (s := s.bucket) nanosPerSec perSecs now hburst hs
  rwa [← allow_eq_ok h] at hlt

theorem not_isIdle (h : s.tokens < perIpBurst) (now : ℕ) : s.isIdle now = false := by
  rw [isIdle, decide_eq_false (Nat.not_le.mpr h), Bool.false_and]

end PerIpState

namespace PerIpRateLimiter

variable {b : Build} {l l' : PerIpRateLimiter} {addr : SocketAddr} {created now : ℕ}
  {granted : Bool} {clock : IpAddr → ℕ}

/-- A call changes the entry of its address and no other. -/
theorem allow_eq_ok (h : allow b l addr created now = .ok (granted, l')) :
    ∃ entry, ((l.lookup addr.ip).getD (.new created)).allow b now = .ok (granted, entry) ∧
      ∀ ip, l'.lookup ip = if ip = addr.ip then some entry else l.lookup ip := by
  obtain ⟨⟨granted', entry⟩, hallow, h⟩ := Outcome.bind_eq_ok.mp h
  obtain ⟨rfl, rfl⟩ := Prod.mk.inj (Outcome.ok.inj h)
  exact ⟨entry, hallow, fun ip => HashMap.lookup_insert_eq l addr.ip ip entry⟩

/-- The entries of the addresses on a list are dropped. -/
theorem lookup_foldl_erase (entries : List (Sigma fun _ : IpAddr => PerIpState))
    (l : PerIpRateLimiter) (ip : IpAddr) :
    (entries.foldl (fun l e => l.erase e.1) l).lookup ip =
      if ip ∈ entries.map Sigma.fst then none else l.lookup ip := by
  induction entries generalizing l with
  | nil => rfl
  | cons e entries ih =>
    rw [List.foldl_cons, ih, HashMap.lookup_erase_eq, List.map_cons]
    by_cases heq : ip = e.1
    · simp [heq]
    · simp only [List.mem_cons, heq, if_false, false_or]

/-- `gc` drops the entries that are idle. -/
theorem lookup_gc (l : PerIpRateLimiter) (clock : IpAddr → ℕ) (ip : IpAddr) :
    (gc l clock).lookup ip = (l.lookup ip).filter fun s => !s.isIdle (clock ip) := by
  have hmem : ip ∈ (l.entries.filter fun e => e.2.isIdle (clock e.1)).map Sigma.fst ↔
      ∃ s, l.lookup ip = some s ∧ s.isIdle (clock ip) = true := by
    simp only [List.mem_map, List.mem_filter, Sigma.exists, ← AList.mem_lookup_iff, Option.mem_def]
    constructor
    · rintro ⟨_, s, ⟨hs, hidle⟩, rfl⟩
      exact ⟨s, hs, hidle⟩
    · rintro ⟨s, hs, hidle⟩
      exact ⟨ip, s, ⟨hs, hidle⟩, rfl⟩
  rw [gc, lookup_foldl_erase]
  split
  · next hin =>
    obtain ⟨s, hs, hidle⟩ := hmem.mp hin
    rw [hs, Option.filter_some, hidle]
    rfl
  · next hout =>
    cases hs : l.lookup ip with
    | none => rfl
    | some s =>
      rw [Option.filter_some, if_pos]
      rw [Bool.not_eq_true']
      by_contra hidle
      exact hout (hmem.mpr ⟨s, hs, Bool.not_eq_false _ ▸ hidle⟩)

end PerIpRateLimiter

namespace LimiterHistory

variable {b : Build} {h h' : LimiterHistory} {e : LimiterEvent}

/-- What a step does. -/
theorem next_cases (hstep : h.next b e = some h') :
    (∃ addr created now granted entry, e = .allow addr created now ∧ h.clock ≤ created ∧
      created ≤ now ∧
      ((h.limiter.lookup addr.ip).getD (.new created)).allow b now = .ok (granted, entry) ∧
      (∀ ip, h'.limiter.lookup ip =
        if ip = addr.ip then some entry else h.limiter.lookup ip) ∧
      h'.clock = now ∧ h'.answers = h.answers ++ [⟨addr.ip, now, granted⟩]) ∨
    ∃ clock, e = .gc clock ∧
      h' = { h with limiter := PerIpRateLimiter.gc h.limiter clock } := by
  cases e with
  | gc clock => exact .inr ⟨clock, rfl, (Option.some.inj hstep).symm⟩
  | allow addr created now =>
    obtain ⟨⟨hcreated, hnow⟩, hstep⟩ := Option.ite_none_right_eq_some.mp hstep
    obtain ⟨⟨granted, l⟩, hallow, hstep⟩ := Option.bind_eq_some_iff.mp hstep
    obtain rfl := Option.some.inj hstep
    obtain ⟨entry, hentry, hlookup⟩ :=
      PerIpRateLimiter.allow_eq_ok (Outcome.toOption_eq_some.mp hallow)
    exact .inl ⟨addr, created, now, granted, entry, rfl, hcreated, hnow, hentry, hlookup, rfl, rfl⟩

/-- Every entry is one of a call that took a token, and every address that has called has one. -/
structure Kept (h : LimiterHistory) : Prop where
  tokens_lt : ∀ ip s, h.limiter.lookup ip = some s → s.tokens < perIpBurst
  mem : ∀ a ∈ h.answers, a.ip ∈ h.limiter

/-- `gc` drops nothing. -/
theorem Kept.lookup_gc (hkept : h.Kept) (clock : IpAddr → ℕ) (ip : IpAddr) :
    (PerIpRateLimiter.gc h.limiter clock).lookup ip = h.limiter.lookup ip := by
  rw [PerIpRateLimiter.lookup_gc]
  cases hs : h.limiter.lookup ip with
  | none => rfl
  | some s =>
    rw [Option.filter_some, PerIpState.not_isIdle (hkept.tokens_lt ip s hs)]
    rfl

/-- The entry that a call works on is at most full. -/
theorem Kept.tokens_le (hkept : h.Kept) (ip : IpAddr) (created : ℕ) :
    ((h.limiter.lookup ip).getD (.new created)).tokens ≤ perIpBurst := by
  cases hs : h.limiter.lookup ip with
  | none => exact le_rfl
  | some s => exact (hkept.tokens_lt ip s hs).le

theorem Kept.next (hkept : h.Kept) (hstep : h.next b e = some h') : h'.Kept := by
  obtain ⟨addr, created, now, granted, entry, rfl, _, _, hentry, hlookup, _, hanswers⟩ |
    ⟨clock, rfl, rfl⟩ := next_cases hstep
  · constructor
    · intro ip s hs
      rw [hlookup] at hs
      split at hs
      · obtain rfl := Option.some.inj hs
        exact PerIpState.tokens_lt_of_allow hentry (hkept.tokens_le _ _)
      · exact hkept.tokens_lt ip s hs
    · intro a ha
      rw [← AList.lookup_isSome, hlookup]
      split
      · rfl
      · next hne =>
        rw [hanswers] at ha
        rcases List.mem_append.mp ha with ha | ha
        · exact AList.lookup_isSome.mpr (hkept.mem a ha)
        · obtain rfl := List.mem_singleton.mp ha
          exact absurd rfl hne
  · constructor
    · intro ip s hs
      rw [hkept.lookup_gc] at hs
      exact hkept.tokens_lt ip s hs
    · intro a ha
      rw [← AList.lookup_isSome, hkept.lookup_gc]
      exact AList.lookup_isSome.mpr (hkept.mem a ha)

end LimiterHistory

theorem kept_of_run {b : Build} {h : LimiterHistory}
    (hrun : (perIpLimiter b).Reachable System.unguarded h) : h.Kept := by
  have hinv : (perIpLimiter b).Invariant System.unguarded LimiterHistory.Kept := by
    refine ⟨?_, fun _ _ _ h _ hstep => h.next hstep⟩
    rintro h rfl
    constructor
    · intro ip s hs
      cases hs
    · intro a ha
      cases ha
  exact hinv.reachable hrun

/-- However long an address has been silent, `gc` keeps its entry. -/
theorem mem_gc_of_called {b : Build} {h : LimiterHistory}
    (hrun : (perIpLimiter b).Reachable System.unguarded h) {a : LimiterAnswer}
    (ha : a ∈ h.answers) (clock : IpAddr → ℕ) :
    a.ip ∈ PerIpRateLimiter.gc h.limiter clock := by
  have hkept := kept_of_run hrun
  rw [← AList.lookup_isSome, hkept.lookup_gc]
  exact AList.lookup_isSome.mpr (hkept.mem a ha)

/-- The address of a sender, by its last byte. -/
def sender (k : UInt32) : SocketAddr := .v4 ⟨0x0A000000 + k, 6881⟩

/-- One sender calls twice and another once. -/
def threeCalls : List LimiterEvent :=
  [.allow (sender 1) 0 5, .allow (sender 2) 7 7, .allow (sender 1) 2_000_000_007 2_000_000_007]

theorem mem_gc_sender :
    ∃ h, (perIpLimiter .debug).Reachable System.unguarded h ∧
      (⟨(sender 1).ip, 2_000_000_007, true⟩ : LimiterAnswer) ∈ h.answers ∧
      (sender 1).ip ∈ PerIpRateLimiter.gc h.limiter fun _ => 400_000_000_000 := by
  have hany : (System.runWhile (LimiterHistory.next .debug) (fun _ _ => true) .start
      threeCalls).any (fun h => decide (
        (⟨(sender 1).ip, 2_000_000_007, true⟩ : LimiterAnswer) ∈ h.answers)) = true := by
    decide +kernel
  obtain ⟨h, hrun, hs⟩ := (Option.any_eq_true _ _).mp hany
  have hreach : (perIpLimiter .debug).Reachable System.unguarded h :=
    System.runWhile_reachable (fun _ _ _ h => h) (fun _ _ _ => trivial) (.init rfl) hrun
  have hmem := of_decide_eq_true hs
  exact ⟨h, hreach, hmem, mem_gc_of_called hreach hmem _⟩

/-- One call, and `gc` five minutes and a second later. -/
theorem gc_keeps_silent_sender :
    ∃ h, (perIpLimiter .release).Reachable System.unguarded h ∧
      h.answers = [⟨(sender 1).ip, 0, true⟩] ∧
      (sender 1).ip ∈ PerIpRateLimiter.gc h.limiter fun _ => 301_000_000_000 := by
  have hany : (System.runWhile (LimiterHistory.next .release) (fun _ _ => true) .start
      [.allow (sender 1) 0 0]).any (fun h => decide (h.answers = [⟨(sender 1).ip, 0, true⟩] ∧
        ((PerIpRateLimiter.gc h.limiter fun _ => 301_000_000_000).lookup
          (sender 1).ip).isSome = true)) = true := by
    decide +kernel
  obtain ⟨h, hrun, hs⟩ := (Option.any_eq_true _ _).mp hany
  obtain ⟨hanswers, hkept⟩ := of_decide_eq_true hs
  have hreach : (perIpLimiter .release).Reachable System.unguarded h :=
    System.runWhile_reachable (fun _ _ _ h => h) (fun _ _ _ => trivial) (.init rfl) hrun
  exact ⟨h, hreach, hanswers, AList.lookup_isSome.mp hkept⟩

namespace LimiterHistory

variable {b : Build} {h h' : LimiterHistory} {e : LimiterEvent} {ip : IpAddr} {t₁ t₂ : ℕ}

/-- How many calls of an address have passed since a time. -/
def passed (h : LimiterHistory) (ip : IpAddr) (t : ℕ) : ℕ :=
  h.answers.countP fun a => a.ip = ip ∧ a.granted ∧ t ≤ a.time

theorem granted_le_passed (h : LimiterHistory) (ip : IpAddr) (t₁ t₂ : ℕ) :
    h.granted ip t₁ t₂ ≤ h.passed ip t₁ := by
  apply List.countP_mono_left
  intro a _ hpass
  obtain ⟨hip, hgranted, hfrom, _⟩ := of_decide_eq_true hpass
  exact decide_eq_true ⟨hip, hgranted, hfrom⟩

/-- What may pass in a window of time. -/
def windowLimit (t₁ t₂ : ℕ) : ℕ :=
  perIpBurst + perIpLimitPerSec * ((t₂ - t₁) / nanosPerSec + 1)

/-- The bucket of the address with what has passed since `t₁`, and the bound up to `t₂`. -/
structure Windowed (ip : IpAddr) (t₁ t₂ : ℕ) (h : LimiterHistory) : Prop where
  time_le : ∀ a ∈ h.answers, a.time ≤ h.clock
  fresh : h.limiter.lookup ip = none → h.passed ip t₁ = 0
  spent : ∀ s, h.limiter.lookup ip = some s → TokenBucket.Spent perIpBurst nanosPerSec
    perIpLimitPerSec PerIpState.perSecs t₁ (h.passed ip t₁) h.clock s.bucket
  bound : h.granted ip t₁ t₂ ≤ windowLimit t₁ t₂

theorem windowed_start : Windowed ip t₁ t₂ .start where
  time_le a ha := by cases ha
  fresh _ := rfl
  spent s hs := by cases hs
  bound := Nat.zero_le _

/-- Nothing has passed since a time that lies ahead. -/
theorem Windowed.passed_eq_zero (h' : Windowed ip t₁ t₂ h) (hlt : h.clock < t₁) :
    h.passed ip t₁ = 0 := by
  rw [passed, List.countP_eq_zero]
  intro a ha hpass
  have hle := h'.time_le a ha
  have hge := (of_decide_eq_true hpass).2.2
  omega

/-- The bucket that a call of the address works on. -/
theorem Windowed.entry (hw : Windowed ip t₁ t₂ h) {created now : ℕ} (hcreated : h.clock ≤ created)
    (hnow : created ≤ now) : ∃ clock ≤ now, TokenBucket.Spent perIpBurst nanosPerSec
      perIpLimitPerSec PerIpState.perSecs t₁ (h.passed ip t₁) clock
      ((h.limiter.lookup ip).getD (.new created)).bucket := by
  cases hs : h.limiter.lookup ip with
  | some s => exact ⟨h.clock, hcreated.trans hnow, hw.spent s hs⟩
  | none =>
    rw [hw.fresh hs]
    exact ⟨created, hnow, TokenBucket.spent_full t₁ created⟩

/-- Up to a time before the end of the window the bucket bounds what the window lets pass. -/
theorem granted_le_windowLimit {now : ℕ} {s : TokenBucket}
    (h' : TokenBucket.Spent perIpBurst nanosPerSec perIpLimitPerSec PerIpState.perSecs t₁
      (h.passed ip t₁) now s) (hnow : now ≤ t₂) : h.granted ip t₁ t₂ ≤ windowLimit t₁ t₂ := by
  have hunits : (now - t₁) / nanosPerSec ≤ (t₂ - t₁) / nanosPerSec :=
    Nat.div_le_div_right (Nat.sub_le_sub_right hnow t₁)
  calc h.granted ip t₁ t₂ ≤ h.passed ip t₁ := granted_le_passed h _ _ _
    _ ≤ windowLimit t₁ now := h'.passed_le
    _ ≤ windowLimit t₁ t₂ := by
      rw [windowLimit, windowLimit]
      gcongr

section Append

variable {a : LimiterAnswer} (hanswers : h'.answers = h.answers ++ [a])
include hanswers

theorem passed_append (ip : IpAddr) (t : ℕ) : h'.passed ip t =
    h.passed ip t + if a.ip = ip ∧ a.granted = true ∧ t ≤ a.time then 1 else 0 := by
  rw [passed, hanswers, List.countP_append, List.countP_singleton, passed]
  simp only [decide_eq_true_eq]

theorem granted_append (ip : IpAddr) (t₁ t₂ : ℕ) : h'.granted ip t₁ t₂ = h.granted ip t₁ t₂ +
    if a.ip = ip ∧ a.granted = true ∧ t₁ ≤ a.time ∧ a.time ≤ t₂ then 1 else 0 := by
  rw [granted, hanswers, List.countP_append, List.countP_singleton, granted]
  simp only [decide_eq_true_eq]

theorem time_le_append (htime : ∀ a ∈ h.answers, a.time ≤ h.clock) (hclock : h.clock ≤ h'.clock)
    (hlast : a.time = h'.clock) : ∀ a ∈ h'.answers, a.time ≤ h'.clock := by
  intro a' ha'
  rw [hanswers] at ha'
  rcases List.mem_append.mp ha' with ha' | ha'
  · exact (htime a' ha').trans hclock
  · obtain rfl := List.mem_singleton.mp ha'
    exact hlast.le

end Append

theorem Windowed.next (hw : Windowed ip t₁ t₂ h) (hkept : h.Kept) (hstep : h.next b e = some h') :
    h'.Windowed ip t₁ t₂ := by
  obtain ⟨addr, created, now, granted, entry, rfl, hcreated, hnow, hentry, hlookup, hclock,
    hanswers⟩ | ⟨clock, rfl, rfl⟩ := next_cases hstep
  · have hlater : h.clock ≤ h'.clock := hclock ▸ hcreated.trans hnow
    have htime := time_le_append hanswers hw.time_le hlater hclock.symm
    have hpassed := passed_append hanswers ip t₁
    have hgranted := granted_append hanswers ip t₁ t₂
    by_cases hip : ip = addr.ip
    · subst hip
      obtain ⟨clock, hle, hspent⟩ := hw.entry hcreated hnow
      have hcall := hspent.call PerIpState.limited_perSecs hle fun hlt =>
        hw.passed_eq_zero (by omega)
      rw [← PerIpState.allow_eq_ok hentry] at hcall
      simp only [true_and] at hpassed hgranted
      rw [← hpassed] at hcall
      refine ⟨htime, ?_, ?_, ?_⟩
      · intro hnone
        rw [hlookup, if_pos rfl] at hnone
        cases hnone
      · intro s hs
        rw [hlookup, if_pos rfl] at hs
        obtain rfl := Option.some.inj hs
        rw [hclock]
        exact hcall
      · by_cases hlate : now ≤ t₂
        · exact granted_le_windowLimit hcall hlate
        · rw [hgranted, if_neg fun hin => hlate hin.2.2]
          exact hw.bound
    · have hother : addr.ip ≠ ip := fun heq => hip heq.symm
      rw [if_neg fun hin => hother hin.1] at hpassed hgranted
      refine ⟨htime, ?_, ?_, ?_⟩
      · intro hnone
        rw [hlookup, if_neg hip] at hnone
        rw [hpassed]
        exact hw.fresh hnone
      · intro s hs
        rw [hlookup, if_neg hip] at hs
        rw [hpassed, hclock]
        exact (hw.spent s hs).mono (hcreated.trans hnow)
      · rw [hgranted]
        exact hw.bound
  · refine ⟨hw.time_le, ?_, ?_, hw.bound⟩
    · intro hnone
      rw [hkept.lookup_gc] at hnone
      exact hw.fresh hnone
    · intro s hs
      rw [hkept.lookup_gc] at hs
      exact hw.spent s hs

/-- The same entry and the same answers for one address. -/
structure Agrees (ip : IpAddr) (h₁ h₂ : LimiterHistory) : Prop where
  clock_le : h₂.clock ≤ h₁.clock
  lookup : h₂.limiter.lookup ip = h₁.limiter.lookup ip
  answers : h₂.answersTo ip = h₁.answersTo ip

/-- A call of another address changes neither. -/
theorem Agrees.skip {h₂ : LimiterHistory} (hagree : Agrees ip h h₂)
    (hstep : h.next b e = some h') (hother : e.concerns ip = false) : Agrees ip h' h₂ := by
  obtain ⟨addr, created, now, granted, entry, rfl, hcreated, hnow, _, hlookup, hclock,
    hanswers⟩ | ⟨clock, rfl, rfl⟩ := next_cases hstep
  · have hne : addr.ip ≠ ip := of_decide_eq_false hother
    refine ⟨?_, ?_, ?_⟩
    · rw [hclock]
      exact hagree.clock_le.trans (hcreated.trans hnow)
    · rw [hlookup, if_neg hne.symm, hagree.lookup]
    · rw [hagree.answers, answersTo, answersTo, hanswers, List.filter_append,
        List.filter_cons_of_neg (by simpa using hne), List.filter_nil, List.append_nil]
  · cases hother

/-- A call of the address, or `gc`, does the same to both. -/
theorem Agrees.step {h₂ : LimiterHistory} (hagree : Agrees ip h h₂)
    (hstep : h.next b e = some h') (hconcerns : e.concerns ip = true) :
    ∃ h₂', h₂.next b e = some h₂' ∧ Agrees ip h' h₂' := by
  obtain ⟨addr, created, now, granted, entry, rfl, hcreated, hnow, hentry, hlookup, hclock,
    hanswers⟩ | ⟨clock, rfl, rfl⟩ := next_cases hstep
  · obtain rfl := of_decide_eq_true hconcerns
    have hallow : PerIpRateLimiter.allow b h₂.limiter addr created now =
        .ok (granted, h₂.limiter.insert addr.ip entry) := by
      rw [PerIpRateLimiter.allow, hagree.lookup, hentry]
      rfl
    refine ⟨⟨h₂.limiter.insert addr.ip entry, now, h₂.answers ++ [⟨addr.ip, now, granted⟩]⟩, ?_,
      ?_, ?_, ?_⟩
    · rw [LimiterHistory.next, if_pos ⟨hagree.clock_le.trans hcreated, hnow⟩, hallow]
      rfl
    · exact hclock.ge
    · rw [hlookup, if_pos rfl, AList.lookup_insert]
    · have hprev := hagree.answers
      rw [answersTo, answersTo] at hprev
      rw [answersTo, answersTo, hanswers, List.filter_append, List.filter_append, hprev]
  · refine ⟨_, rfl, hagree.clock_le, ?_, hagree.answers⟩
    rw [PerIpRateLimiter.lookup_gc, PerIpRateLimiter.lookup_gc, hagree.lookup]

/-- The calls of one address with the runs of `gc` make a run of their own. -/
theorem Agrees.run {h₂ : LimiterHistory} {es : List LimiterEvent} (hagree : Agrees ip h h₂)
    (hrun : (perIpLimiter b).Run h es h') :
    ∃ h₂', (perIpLimiter b).Run h₂ (es.filter fun e => e.concerns ip) h₂' ∧ Agrees ip h' h₂' := by
  induction hrun generalizing h₂ with
  | nil => exact ⟨h₂, .nil, hagree⟩
  | @cons h mid h' e es hstep _ ih =>
    cases hconcerns : e.concerns ip with
    | false =>
      obtain ⟨h₂', hrest, hend⟩ := ih (hagree.skip hstep hconcerns)
      refine ⟨h₂', ?_, hend⟩
      rwa [List.filter_cons_of_neg (by rw [hconcerns]; exact Bool.false_ne_true)]
    | true =>
      obtain ⟨mid₂, hstep₂, hmid⟩ := hagree.step hstep hconcerns
      obtain ⟨h₂', hrest, hend⟩ := ih hmid
      refine ⟨h₂', ?_, hend⟩
      rw [List.filter_cons_of_pos hconcerns]
      exact .cons hstep₂ hrest

end LimiterHistory

theorem windowed_of_run {b : Build} {h : LimiterHistory}
    (hrun : (perIpLimiter b).Reachable System.unguarded h) (ip : IpAddr) (t₁ t₂ : ℕ) :
    h.Windowed ip t₁ t₂ := by
  induction hrun with
  | init hinit =>
    obtain rfl := hinit
    exact LimiterHistory.windowed_start
  | step hrun _ hstep ih => exact ih.next (kept_of_run hrun) hstep

/-- In every window of time as many calls of an address pass as the burst and the rate allow, and
its answers are those that it gets when no other address calls. -/
theorem perIp_limited {b : Build} {h : LimiterHistory} {es : List LimiterEvent}
    (hrun : (perIpLimiter b).Run .start es h) (ip : IpAddr) :
    (∀ t₁ t₂, h.granted ip t₁ t₂ ≤
      perIpBurst + perIpLimitPerSec * ((t₂ - t₁) / nanosPerSec + 1)) ∧
    ∃ h', (perIpLimiter b).Run .start (es.filter fun e => e.concerns ip) h' ∧
      h'.answersTo ip = h.answersTo ip := by
  constructor
  · intro t₁ t₂
    exact (windowed_of_run (hrun.reachable (.init rfl)) ip t₁ t₂).bound
  · have hsame : LimiterHistory.Agrees ip .start .start := ⟨le_rfl, rfl, rfl⟩
    obtain ⟨h', halone, hend⟩ := hsame.run hrun
    exact ⟨h', halone, hend.answers⟩

theorem perIp_limited_threeCalls :
    ∃ h, (perIpLimiter .debug).Run .start threeCalls h ∧
      h.granted (sender 1).ip 5 2_000_000_007 ≤ 250 ∧
      ∃ h', (perIpLimiter .debug).Run .start
          (threeCalls.filter fun e => e.concerns (sender 1).ip) h' ∧
        h'.answersTo (sender 1).ip = h.answersTo (sender 1).ip := by
  have hsome : (System.runWhile (LimiterHistory.next .debug) (fun _ _ => true) .start
      threeCalls).isSome = true := by
    decide +kernel
  obtain ⟨h, hwhile⟩ := Option.isSome_iff_exists.mp hsome
  have hrun : (perIpLimiter .debug).Run .start threeCalls h :=
    System.runWhile_run (fun _ _ _ h => h) hwhile
  obtain ⟨hbound, halone⟩ := perIp_limited hrun (sender 1).ip
  exact ⟨h, hrun, hbound 5 2_000_000_007, halone⟩

end Retorrent.Dht
