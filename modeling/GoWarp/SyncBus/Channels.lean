import GoWarp.SyncBus.Bus
import Mathlib.Data.Finset.Basic
import Mathlib.Data.List.Count

/-!
# The channels of the in-memory bus

A channel is in the list of its key, once, from its `Subscribe` to its
`Unsubscribe`, and it is open exactly then.  Removal puts the last channel in
the place of the removed one.  While a call holds the lock the lists do not
change, so a call sends to open channels only.
-/

namespace GoWarp.SyncBus

open Support

theorem removeChan_perm {subs : List ℕ} {ch : ℕ} (h : ch ∈ subs) :
    (removeChan subs ch).Perm (subs.erase ch) := by
  obtain ⟨before, after, rfl, hbefore⟩ := List.eq_append_cons_of_mem h
  have hindex : (before ++ ch :: after).idxOf ch = before.length := by
    rw [List.idxOf_append_of_notMem hbefore, List.idxOf_cons_self, Nat.add_zero]
  have herase : (before ++ ch :: after).erase ch = before ++ after := by
    rw [List.erase_append_right _ hbefore, List.erase_cons_head]
  rw [removeChan, hindex, herase]
  rcases List.eq_nil_or_concat after with rfl | ⟨after, last, rfl⟩
  · simp
  · have hassoc : before ++ ch :: (after ++ [last]) = before ++ ch :: after ++ [last] := by simp
    have hset : (before ++ ch :: (after ++ [last])).set before.length last =
        before ++ last :: after ++ [last] := by simp
    have hlast : (before ++ ch :: (after ++ [last])).getLast? = some last := by
      rw [hassoc, List.getLast?_concat]
    rw [List.concat_eq_append, hlast]
    dsimp only
    rw [hset, List.dropLast_concat]
    exact (List.perm_append_singleton last after).symm.append_left before

theorem mem_removeChan_iff {subs : List ℕ} (hnodup : subs.Nodup) {ch : ℕ} (h : ch ∈ subs) (c : ℕ) :
    c ∈ removeChan subs ch ↔ c ≠ ch ∧ c ∈ subs := by
  rw [(removeChan_perm h).mem_iff, hnodup.mem_erase_iff]

/-! ## The bus is sound -/

/-- Every list has its channels once, and they are open and were made for
it. -/
structure Bus.Sound (b : Bus) : Prop where
  alive : b.panicked = false
  nodup : ∀ key, (b.subs key).Nodup
  opened : ∀ key, ∀ ch ∈ b.subs key, ch < b.nextChan ∧
    (b.chans ch).closed = false ∧ (b.chans ch).topic = key

namespace Bus.Sound

variable {b : Bus}

variable (h : b.Sound)
include h

theorem nextChan_notMem (key : Key) : b.nextChan ∉ b.subs key := by
  intro hmem
  exact Nat.lt_irrefl _ (h.opened key _ hmem).1

theorem of_same {b' : Bus} (halive : b'.panicked = false)
    (hsubs : b'.subs = b.subs) (hnext : b'.nextChan = b.nextChan)
    (hclosed : ∀ ch, (b'.chans ch).closed = (b.chans ch).closed)
    (htopic : ∀ ch, (b'.chans ch).topic = (b.chans ch).topic) : b'.Sound where
  alive := halive
  nodup key := by
    rw [hsubs]
    exact h.nodup key
  opened key ch hch := by
    rw [hnext, hclosed, htopic]
    exact h.opened key ch (hsubs ▸ hch)

theorem subscribe (key : Key) : (b.subscribe key).Sound where
  alive := h.alive
  nodup k := by
    by_cases hk : k = key
    · subst hk
      have hnew := h.nextChan_notMem k
      rw [Bus.subscribe]
      dsimp only
      rw [Function.update_self, List.nodup_append]
      refine ⟨h.nodup k, List.nodup_singleton _, ?_⟩
      rintro c hc d hd rfl
      exact hnew (List.mem_singleton.mp hd ▸ hc)
    · simpa [Bus.subscribe, hk] using h.nodup k
  opened k ch hch := by
    have hold : ch ∈ b.subs k → ch < b.nextChan + 1 ∧ ((b.subscribe key).chans ch).closed = false ∧
        ((b.subscribe key).chans ch).topic = k := by
      intro hmem
      obtain ⟨hlt, hopen, htopic⟩ := h.opened k ch hmem
      have hne : ch ≠ b.nextChan := Nat.ne_of_lt hlt
      simp [Bus.subscribe, hne, hopen, htopic, Nat.lt_succ_of_lt hlt]
    by_cases hk : k = key
    · subst hk
      simp only [Bus.subscribe, Function.update_self, List.mem_append, List.mem_singleton] at hch
      rcases hch with hmem | rfl
      · exact hold hmem
      · simp [Bus.subscribe, Channel.new]
    · refine hold ?_
      simpa [Bus.subscribe, hk] using hch

theorem mem_unsubscribe_iff (key : Key) (ch : ℕ) (k : Key)
    (c : ℕ) : c ∈ (b.unsubscribe key ch).subs k ↔ (k, c) ≠ (key, ch) ∧ c ∈ b.subs k := by
  by_cases hmem : ch ∈ b.subs key
  · rw [Bus.unsubscribe, if_pos hmem]
    by_cases hk : k = key
    · subst hk
      simp [mem_removeChan_iff (h.nodup k) hmem]
    · simp [hk]
  · rw [Bus.unsubscribe, if_neg hmem, iff_and_self]
    rintro hc heq
    obtain ⟨rfl, rfl⟩ := Prod.mk.inj heq
    exact hmem hc

theorem nodup_unsubscribe (key : Key) (ch : ℕ) (k : Key) :
    ((b.unsubscribe key ch).subs k).Nodup := by
  by_cases hmem : ch ∈ b.subs key
  · rw [Bus.unsubscribe, if_pos hmem]
    by_cases hk : k = key
    · subst hk
      have hperm := removeChan_perm hmem
      simpa using hperm.nodup_iff.mpr ((h.nodup k).erase ch)
    · simpa [hk] using h.nodup k
  · rw [Bus.unsubscribe, if_neg hmem]
    exact h.nodup k

theorem unsubscribe (key : Key) (ch : ℕ) : (b.unsubscribe key ch).Sound where
  alive := by
    rw [Bus.unsubscribe]
    split
    · rename_i hmem
      -- a channel in the list has not been closed
      simp [h.alive, (h.opened key ch hmem).2.1]
    · exact h.alive
  nodup := h.nodup_unsubscribe key ch
  opened k c hc := by
    obtain ⟨hne, hold⟩ := (h.mem_unsubscribe_iff key ch k c).mp hc
    obtain ⟨hlt, hopen, htopic⟩ := h.opened k c hold
    rw [Bus.unsubscribe]
    split
    · rename_i hmem
      have hother : c ≠ ch := by
        rintro rfl
        have hkey := (h.opened key c hmem).2.2
        exact hne (Prod.ext (htopic.symm.trans hkey) rfl)
      simp [hother, hlt, hopen, htopic]
    · exact ⟨hlt, hopen, htopic⟩

end Bus.Sound

/-! ## The system is sound -/

/-- A call that sends holds the lock and has only channels of its key left. -/
def Call.Sends (b : Bus) (i : ℕ) (call : Call) : Prop :=
  ∀ rest, call.phase = .sending rest → i ∈ b.readers ∧ rest <:+ b.subs call.key

structure System.Sound (s : System) : Prop where
  bus : s.bus.Sound
  sends : ∀ i call, s.calls i = some call → call.Sends s.bus i

theorem Call.Sends.congr {b b' : Bus} {i : ℕ} {call call' : Call}
    (h : call.Sends b i) (hsubs : b'.subs = b.subs) (hreaders : i ∈ b.readers → i ∈ b'.readers)
    (hphase : call'.phase = call.phase) (hkey : call'.key = call.key) :
    call'.Sends b' i := by
  intro rest hrest
  obtain ⟨hmem, hsuffix⟩ := h rest (hphase ▸ hrest)
  rw [hsubs, hkey]
  exact ⟨hreaders hmem, hsuffix⟩

namespace Turn

variable {b : Bus} {i : ℕ} {call : Call} {r : Bus × Call}

theorem sends (h : Turn b i call r) (hsends : call.Sends b i) : r.2.Sends r.1 i := by
  have hnext : ∀ ch rest, call.phase = .sending (ch :: rest) →
      i ∈ b.readers ∧ rest <:+ b.subs call.key := by
    intro ch rest hphase
    obtain ⟨hmem, hsuffix⟩ := hsends _ hphase
    exact ⟨hmem, (List.suffix_cons ch rest).trans hsuffix⟩
  cases h with
  | entered =>
    rintro _ ⟨⟩
    exact ⟨List.mem_cons_self, List.suffix_rfl⟩
  | panicked ch rest hphase | sent ch rest hphase | skipped ch rest hphase =>
    rintro _ ⟨⟩
    exact hnext ch rest hphase
  -- after any other step the call does not send
  | rejected => rintro _ ⟨⟩
  | checked => rintro _ ⟨⟩
  | merged => rintro _ ⟨⟩
  | marked => rintro _ ⟨⟩
  | refused => rintro _ ⟨⟩
  | stopped => rintro _ ⟨⟩
  | unsatisfied => rintro _ ⟨⟩
  | finished => rintro _ ⟨⟩
  | cleared => rintro _ ⟨⟩

theorem alive (h : Turn b i call r) (hbus : b.Sound)
    (hsends : call.Sends b i) : r.1.panicked = false := by
  cases h with
  | panicked ch rest hphase hclosed =>
    have hmem := (hsends _ hphase).2.subset List.mem_cons_self
    rw [(hbus.opened _ ch hmem).2.1] at hclosed
    cases hclosed
  | _ => exact hbus.alive

end Turn

namespace System

variable {s s' : System}

theorem Sound.turn (h : s.Sound) {i : ℕ} {call : Call} {r : Bus × Call}
    (hcall : s.calls i = some call) (hturn : Turn s.bus i call r) :
    (s.put i r).Sound where
  bus := h.bus.of_same (hturn.alive h.bus (h.sends i call hcall))
    hturn.frame.subs hturn.frame.nextChan hturn.frame.closed hturn.frame.topic
  sends := forall_calls_put_iff.mpr ⟨hturn.sends (h.sends i call hcall),
    fun j other hj hother => (h.sends j other hother).congr hturn.frame.subs
      (hturn.frame.readers j hj) rfl rfl⟩

theorem Sound.of_free (h : s.Sound) (hfree : s.bus.readers = []) {b' : Bus}
    (hbus : b'.Sound) : ({ s with bus := b' } : System).Sound where
  bus := hbus
  sends i call hcall rest hphase := by
    have hmem := (h.sends i call hcall rest hphase).1
    rw [hfree] at hmem
    cases hmem

theorem Sound.step (h : s.Sound) {a : Action} (hstep : step s a = some s') : s'.Sound := by
  cases moves_of_step hstep with
  | call i method key opts hfresh =>
    refine ⟨h.bus, forall_calls_put_iff.mpr ⟨?_, fun j other _ hother => h.sends j other hother⟩⟩
    rintro _ ⟨⟩
  | cancel i call hcall =>
    exact ⟨h.bus, forall_calls_put_iff.mpr ⟨h.sends i call hcall,
      fun j other _ hother => h.sends j other hother⟩⟩
  | advance i call r hcall hturn => exact h.turn hcall hturn
  | abort i call rest hcall hphase hcanceled =>
    exact h.turn hcall (.stopped rest hphase hcanceled)
  | subscribe key hfree => exact h.of_free hfree (h.bus.subscribe key)
  | unsubscribe key ch hfree =>
    exact h.of_free hfree (h.bus.unsubscribe key ch)
  | receive ch r hreceive =>
    obtain ⟨event, -, rfl⟩ := Option.map_eq_some_iff.mp hreceive
    refine ⟨h.bus.of_same h.bus.alive rfl rfl ?_ ?_, h.sends⟩
    · intro c
      by_cases hc : c = ch <;> simp [hc]
    · intro c
      by_cases hc : c = ch <;> simp [hc]

theorem sound_new : new.Sound where
  bus := ⟨rfl, fun _ => List.nodup_nil, fun _ _ h => by cases h⟩
  sends _ _ h := by cases h

theorem sound_of_run {steps : List Action}
    (hrun : Machine.run System.step new steps = some s) : s.Sound :=
  Machine.run_invariant System.step (fun _ _ _ h hstep => .step h hstep) hrun sound_new

end System

/-! ## The roster -/

/-- Who should be subscribed: the channels by their keys. -/
structure Roster where
  next : ℕ
  members : Finset (Key × ℕ)

/-- `Subscribe` adds a new channel, `Unsubscribe` with the key of a channel
removes it, and nothing else changes the roster. -/
def Roster.after (r : Roster) : Action → Roster
  | .subscribe key => ⟨r.next + 1, insert (key, r.next) r.members⟩
  | .unsubscribe key ch => { r with members := r.members.erase (key, ch) }
  | _ => r

def roster (steps : List Action) : Roster := steps.foldl Roster.after ⟨0, ∅⟩

/-- The bus has the channels of the roster in its lists. -/
def Bus.Reflects (b : Bus) (r : Roster) : Prop :=
  b.nextChan = r.next ∧ ∀ key ch, ch ∈ b.subs key ↔ (key, ch) ∈ r.members

namespace Bus.Reflects

variable {b : Bus} {r : Roster}

theorem of_same {b' : Bus} (h : b.Reflects r) (hnext : b'.nextChan = b.nextChan)
    (hsubs : b'.subs = b.subs) : b'.Reflects r := by
  rw [Reflects, hnext, hsubs]
  exact h

theorem subscribe (h : b.Reflects r) (key : Key) :
    (b.subscribe key).Reflects (r.after (.subscribe key)) := by
  refine ⟨congrArg (· + 1) h.1, fun k ch => ?_⟩
  rw [Roster.after, Finset.mem_insert, ← h.2, ← h.1, Prod.mk.injEq]
  by_cases hk : k = key
  · subst hk
    simp [Bus.subscribe, or_comm]
  · simp [Bus.subscribe, hk]

theorem unsubscribe (h : b.Reflects r) (hbus : b.Sound) (key : Key) (ch : ℕ) :
    (b.unsubscribe key ch).Reflects (r.after (.unsubscribe key ch)) := by
  refine ⟨?_, fun k c => ?_⟩
  · rw [Bus.nextChan_unsubscribe]
    exact h.1
  · rw [hbus.mem_unsubscribe_iff, Roster.after, Finset.mem_erase, h.2]

end Bus.Reflects

namespace System

variable {s s' : System}

theorem reflects_step (h : s.Sound) {r : Roster} (hr : s.bus.Reflects r)
    {a : Action} (hstep : step s a = some s') :
    s'.bus.Reflects (r.after a) := by
  cases moves_of_step hstep with
  | call => exact hr
  | cancel => exact hr
  | advance i call q hcall hturn =>
    exact hr.of_same hturn.frame.nextChan hturn.frame.subs
  | abort => exact hr.of_same rfl rfl
  | subscribe key => exact hr.subscribe key
  | unsubscribe key ch => exact hr.unsubscribe h.bus key ch
  | receive ch q hreceive =>
    obtain ⟨event, -, rfl⟩ := Option.map_eq_some_iff.mp hreceive
    exact hr.of_same rfl rfl

/-- In every run no channel is closed twice and no event is sent to a closed
channel, each channel that is subscribed and not unsubscribed is once in the
list of its key and in no other list, and unsubscribing a channel leaves the
others where they are. -/
theorem channels_of_run (steps : List Action) (s : System)
    (hrun : Machine.run System.step new steps = some s) :
    s.bus.panicked = false ∧ (∀ key ch, (s.bus.subs key).count ch =
        if (key, ch) ∈ (roster steps).members then 1 else 0) ∧
      ∀ key ch s', System.step s (.unsubscribe key ch) = some s' →
        ∀ key' ch', (key', ch') ≠ (key, ch) →
          (s'.bus.subs key').count ch' = (s.bus.subs key').count ch' := by
  have hsound := sound_of_run hrun
  have hreflects : s.bus.Reflects (roster steps) := by
    refine (Machine.run_foldl System.step Roster.after
      (R := fun s r => s.Sound ∧ s.bus.Reflects r) ?_ hrun
      ⟨sound_new, rfl, fun _ _ => by simp [new, Bus.new]⟩).2
    rintro s r a s' ⟨hs, hr⟩ hstep
    exact ⟨hs.step hstep, reflects_step hs hr hstep⟩
  refine ⟨hsound.bus.alive, fun key ch => ?_, ?_⟩
  · rw [(hsound.bus.nodup key).count]
    exact if_congr (hreflects.2 key ch) rfl rfl
  · intro key ch s' hstep key' ch' hne
    have hmem : ch' ∈ s'.bus.subs key' ↔ ch' ∈ s.bus.subs key' := by
      cases moves_of_step hstep
      rw [hsound.bus.mem_unsubscribe_iff]
      exact and_iff_right hne
    rw [((hsound.step hstep).bus.nodup key').count, (hsound.bus.nodup key').count]
    exact if_congr hmem rfl rfl

/-- Two subscriptions; the first is cancelled with another key, and then twice
with its own. -/
def cancelledTwice : List Action :=
  [.subscribe "k", .subscribe "k", .unsubscribe "l" 0, .unsubscribe "k" 0, .unsubscribe "k" 0]

theorem channels_cancelledTwice : ∃ s, Machine.run System.step new cancelledTwice = some s ∧
      s.bus.panicked = false ∧ (s.bus.subs "k").count 1 =
        if ("k", 1) ∈ (roster cancelledTwice).members then 1 else 0 :=
  ⟨_, rfl, (channels_of_run cancelledTwice _ rfl).1,
    (channels_of_run cancelledTwice _ rfl).2.1 "k" 1⟩

end System

end GoWarp.SyncBus
