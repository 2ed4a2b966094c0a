import WgNx.TunnelState

/-!
The indices of one renegotiated session, in the abstract.

A ledger holds what the lookup by receiver index and the processing of a packet read of
the legacy session and of the previous session, and beside it the tags of the current and
of the previous session: the index and the key each was negotiated with and the window
after the counters it has checked.  A handshake changes the ledger in a few kinds of
moves.  For each of them there is a condition under which packets to both tags
still find their session afterwards, and it is the exact one.
-/

namespace WgNx.IndexLedger

open WgNx.ByteLayout
open WgNx.ReplayCounter
open WgNx.TunnelState
open WgNx.WireMessages

/-- The local index and the receiving key a session was negotiated with, and the replay
window of the session since then. -/
structure Tag where
  index : UInt32
  key : Key
  window : WgReplayCounter
  deriving DecidableEq

def Tag.check (t : Tag) (counter : UInt64) : Tag :=
  { t with window := (wgCounterValidate t.window counter).2 }

/-- What the receive loop reads of a session. -/
structure Card where
  localIndex : UInt32
  valid : Bool
  receivingKey : Key
  lastHandshake : UInt64
  replay : WgReplayCounter
  deriving DecidableEq

namespace Card

def zeroed : Card := ⟨0, false, zeroKey, 0, ReplayCounter.zeroed⟩

def check (c : Card) (counter : UInt64) : Card :=
  { c with replay := (wgCounterValidate c.replay counter).2 }

/-- The session has the key and the window that belong to a tag. -/
def Serves (c : Card) (t : Tag) : Prop := c.receivingKey = t.key ∧ c.replay = t.window

/-- Some time from `clock` on finds the session unexpired. -/
def Live (c : Card) (clock : UInt64) : Prop :=
  clock ≤ c.lastHandshake ∨ clock - c.lastHandshake < wgRejectAfterTimeNs

instance (c : Card) (t : Tag) : Decidable (c.Serves t) :=
  inferInstanceAs (Decidable (_ ∧ _))

instance (c : Card) (clock : UInt64) : Decidable (c.Live clock) :=
  inferInstanceAs (Decidable (_ ∨ _))

theorem live_iff (c : Card) (clock : UInt64) :
    c.Live clock ↔ ∃ now, clock ≤ now ∧ now - c.lastHandshake < wgRejectAfterTimeNs := by
  constructor
  · rintro (hearly | hage)
    · exact ⟨c.lastHandshake, hearly, by rw [UInt64.sub_self]; decide⟩
    · exact ⟨clock, UInt64.le_refl _, hage⟩
  · rintro ⟨now, hnow, hage⟩
    rcases UInt64.le_total clock c.lastHandshake with hearly | hlate
    · exact .inl hearly
    · right
      -- Neither subtraction wraps, so the age at `clock` is at most the age at `now`.
      have hclock := UInt64.toNat_sub_of_le _ _ hlate
      have hlast := UInt64.toNat_sub_of_le _ _ (UInt64.le_trans hlate hnow)
      rw [UInt64.le_iff_toNat_le] at hnow
      rw [UInt64.lt_iff_toNat_lt] at hage ⊢
      omega

theorem Live.of_le {c : Card} {clock clock' : UInt64} (h : c.Live clock') (hle : clock ≤ clock') :
    c.Live clock := by
  obtain ⟨now, hnow, hage⟩ := (live_iff c clock').mp h
  exact (live_iff c clock).mpr ⟨now, UInt64.le_trans hle hnow, hage⟩

theorem Serves.check {c : Card} {t : Tag} (h : c.Serves t) (counter : UInt64) :
    (c.check counter).Serves (t.check counter) :=
  ⟨h.1, congrArg (fun window => (wgCounterValidate window counter).2) h.2⟩

end Card

/-- The later of two readings of the clock. -/
def later (clock now : UInt64) : UInt64 := if clock ≤ now then now else clock

theorem le_later (clock now : UInt64) : clock ≤ later clock now := by
  unfold later
  split
  · assumption
  · exact UInt64.le_refl _

structure Ledger where
  session : Card
  oldLocalIndex : UInt32
  prevSession : Card
  current : Option Tag
  previous : Option Tag
  clock : UInt64
  deriving DecidableEq

inductive Slot
  | current
  | previous
  deriving DecidableEq

inductive Move
  | still
  | begun (index : UInt32)
  | answered (key : Key) (since : UInt64)
  | accepted (index : UInt32) (key : Key) (since : UInt64)
  | restored (index : UInt32)
  | checked (slot : Slot) (counter : UInt64)
  | dropped
  | wiped

/-- The index a move draws. -/
def Move.draws : Move → List UInt32
  | .begun index => [index]
  | .accepted index _ _ => [index]
  | _ => []

/-- The window a move updates, and the counter it checks there. -/
def Move.checks : Move → Option (Slot × UInt64)
  | .checked slot counter => some (slot, counter)
  | _ => none

/-- What a step asks of the ledger it is taken in. -/
inductive Demand
  | nothing
  | mayBegin
  | mayAnswer
  | mayAccept
  | mayRestore (index : UInt32)

def Move.demand : Move → Demand
  | .begun _ => .mayBegin
  | .answered _ _ => .mayAnswer
  | .accepted _ _ _ => .mayAccept
  | .restored index => .mayRestore index
  | _ => .nothing

/-- The tag of a new session, if it has an index that was drawn. -/
def tagOf (index : UInt32) (key : Key) : Option Tag :=
  if index = 0 then none else some ⟨index, key, ReplayCounter.zeroed⟩

namespace Ledger

/-- The previous session is replaced by a valid current one. -/
def keep (l : Ledger) (index : UInt32) : Ledger :=
  if l.session.valid then { l with prevSession := { l.session with localIndex := index } }
  else l

def install (l : Ledger) (index : UInt32) (key : Key) (since : UInt64) : Ledger :=
  { l with
    session := ⟨index, true, key, since, ReplayCounter.zeroed⟩
    current := tagOf index key
    previous := l.current }

def apply (l : Ledger) : Move → Ledger
  | .still => l
  | .begun index =>
      { l with
        oldLocalIndex := l.session.localIndex
        session := { l.session with localIndex := index } }
  | .answered key since => (l.keep l.oldLocalIndex).install l.session.localIndex key since
  | .accepted index key since => (l.keep l.session.localIndex).install index key since
  | .restored index => { l with session := { l.session with localIndex := index } }
  | .checked .current counter =>
      { l with
        session := l.session.check counter
        current := l.current.map (·.check counter) }
  | .checked .previous counter =>
      { l with
        prevSession := l.prevSession.check counter
        previous := l.previous.map (·.check counter) }
  | .dropped => { l with prevSession := .zeroed }
  | .wiped => ⟨.zeroed, 0, .zeroed, none, none, l.clock⟩

/-- The clock has been read again. -/
def tick (l : Ledger) (now : UInt64) : Ledger := { l with clock := later l.clock now }

def lookup (l : Ledger) (index : UInt32) : Option Slot :=
  if index = l.session.localIndex then some .current
  else if index = l.oldLocalIndex then some .current
  else if l.prevSession.valid ∧ index = l.prevSession.localIndex then some .previous
  else none

/-- The previous session is one that packets may still come in for. -/
def Kept (l : Ledger) : Prop := l.prevSession.valid = true ∧ l.prevSession.Live l.clock

instance (l : Ledger) : Decidable l.Kept := inferInstanceAs (Decidable (_ ∧ _))

/-- Packets to either tag are processed with the session negotiated under it. -/
structure Sound (l : Ledger) : Prop where
  current : ∀ t ∈ l.current, l.lookup t.index = some .current ∧ l.session.Serves t
  previous : ∀ t ∈ l.previous, l.Kept →
    l.lookup t.index = some .previous ∧ l.prevSession.Serves t

/-- What holds in every ledger: keys and windows are those of the tags. -/
structure Consistent (l : Ledger) : Prop where
  current : ∀ t ∈ l.current, l.session.valid = true ∧ l.session.Serves t ∧ t.index ≠ 0
  previous : ∀ t ∈ l.previous,
    t.index ≠ 0 ∧ (l.prevSession.valid = true → l.prevSession.Serves t)

/-- An index of one of the tags. -/
def Tagged (l : Ledger) (index : UInt32) : Prop :=
  ∃ t, (t ∈ l.current ∨ t ∈ l.previous) ∧ t.index = index

/-- The negotiated index is the one in place. -/
def CanBegin (l : Ledger) : Prop := ∀ t ∈ l.current, l.session.localIndex = t.index

def CanAnswer (l : Ledger) : Prop := ∀ _t ∈ l.current, ¬ l.session.Live l.clock

def CanAccept (l : Ledger) : Prop :=
  ∀ t ∈ l.current, l.session.Live l.clock →
    l.session.localIndex = t.index ∧ l.oldLocalIndex ≠ t.index

def CanRestore (l : Ledger) (index : UInt32) : Prop :=
  (∀ t ∈ l.current, t.index = index ∨ t.index = l.oldLocalIndex) ∧
    ∀ t ∈ l.previous, l.Kept → t.index ≠ index

def Meets (l : Ledger) : Demand → Prop
  | .nothing => True
  | .mayBegin => l.CanBegin
  | .mayAnswer => l.CanAnswer
  | .mayAccept => l.CanAccept
  | .mayRestore index => l.CanRestore index

instance (l : Ledger) : DecidablePred l.Meets
  | .nothing => isTrue trivial
  | .mayBegin => inferInstanceAs (Decidable (∀ t ∈ l.current, _))
  | .mayAnswer => inferInstanceAs (Decidable (∀ t ∈ l.current, _))
  | .mayAccept => inferInstanceAs (Decidable (∀ t ∈ l.current, _))
  | .mayRestore _ => inferInstanceAs (Decidable ((∀ t ∈ l.current, _) ∧ ∀ t ∈ l.previous, _))

/-- The indices a move draws are not in use. -/
def FreshFor (l : Ledger) (m : Move) : Prop := ∀ index, l.Tagged index → index ∉ m.draws

theorem mem_tagOf {index : UInt32} {key : Key} {t : Tag} (h : t ∈ tagOf index key) :
    index ≠ 0 ∧ t = ⟨index, key, ReplayCounter.zeroed⟩ := by
  unfold tagOf at h
  split at h
  · cases h
  · rename_i hne
    exact ⟨hne, (Option.mem_some_iff.mp h).symm⟩

theorem mem_map_check {tags : Option Tag} {counter : UInt64} {t : Tag}
    (h : t ∈ tags.map (·.check counter)) : ∃ t' ∈ tags, t = t'.check counter := by
  obtain ⟨t', ht', rfl⟩ := Option.mem_map.mp h
  exact ⟨t', ht', rfl⟩

theorem lookup_current_iff (l : Ledger) (index : UInt32) :
    l.lookup index = some .current ↔
      index = l.session.localIndex ∨ index = l.oldLocalIndex := by
  unfold lookup
  split
  · simp_all
  · split
    · simp_all
    · split <;> simp_all

theorem lookup_previous_iff (l : Ledger) (index : UInt32) :
    l.lookup index = some .previous ↔
      index ≠ l.session.localIndex ∧ index ≠ l.oldLocalIndex ∧
        l.prevSession.valid = true ∧ index = l.prevSession.localIndex := by
  unfold lookup
  split
  · simp_all
  · split
    · simp_all
    · split <;> simp_all

theorem keep_of_valid {l : Ledger} (h : l.session.valid = true) (index : UInt32) :
    l.keep index = { l with prevSession := { l.session with localIndex := index } } :=
  if_pos h

theorem keep_current (l : Ledger) (index : UInt32) : (l.keep index).current = l.current := by
  unfold keep
  split <;> rfl

theorem consistent_install {l : Ledger} (h : l.Consistent) (kept index : UInt32) (key : Key)
    (since : UInt64) : ((l.keep kept).install index key since).Consistent := by
  constructor
  · intro t ht
    obtain ⟨hne, rfl⟩ := mem_tagOf ht
    exact ⟨rfl, ⟨rfl, rfl⟩, hne⟩
  · intro t ht
    change t ∈ (l.keep kept).current at ht
    rw [keep_current] at ht
    obtain ⟨hvalid, hserves, hne⟩ := h.current t ht
    rw [keep_of_valid hvalid]
    exact ⟨hne, fun _ => hserves⟩

theorem consistent_apply {l : Ledger} (h : l.Consistent) (m : Move) :
    (l.apply m).Consistent := by
  cases m with
  | still => exact h
  | begun index => exact ⟨h.current, h.previous⟩
  | answered key since => exact consistent_install h ..
  | accepted index key since => exact consistent_install h ..
  | restored index => exact ⟨h.current, h.previous⟩
  | checked slot counter =>
      cases slot with
      | current =>
          refine ⟨fun t ht => ?_, h.previous⟩
          obtain ⟨t', ht', rfl⟩ := mem_map_check ht
          obtain ⟨hvalid, hserves, hne⟩ := h.current t' ht'
          exact ⟨hvalid, hserves.check counter, hne⟩
      | previous =>
          refine ⟨h.current, fun t ht => ?_⟩
          obtain ⟨t', ht', rfl⟩ := mem_map_check ht
          obtain ⟨hne, hserves⟩ := h.previous t' ht'
          exact ⟨hne, fun hvalid => (hserves hvalid).check counter⟩
  | dropped =>
      refine ⟨h.current, fun t ht => ⟨(h.previous t ht).1, fun hvalid => ?_⟩⟩
      cases hvalid
  | wiped =>
      constructor
      · intro t ht
        cases ht
      · intro t ht
        cases ht

/-- Where the index in place comes from. -/
theorem localIndex_apply (l : Ledger) (m : Move) :
    let index := (l.apply m).session.localIndex
    index = l.session.localIndex ∨ index = 0 ∨ index ∈ m.draws ∨ m = .restored index := by
  cases m with
  | begun index => exact .inr (.inr (.inl (List.mem_singleton_self _)))
  | accepted index key since => exact .inr (.inr (.inl (List.mem_singleton_self _)))
  | restored index => exact .inr (.inr (.inr rfl))
  | checked slot counter => cases slot <;> exact .inl rfl
  | wiped => exact .inr (.inl rfl)
  | _ => exact .inl rfl

theorem tagged_install {l : Ledger} {kept index index' : UInt32} {key : Key} {since : UInt64}
    (h : ((l.keep kept).install index key since).Tagged index') :
    l.Tagged index' ∨ index' = index := by
  obtain ⟨t, hnew | hold, rfl⟩ := h
  · obtain ⟨-, rfl⟩ := mem_tagOf hnew
    exact .inr rfl
  · change t ∈ (l.keep kept).current at hold
    rw [keep_current] at hold
    exact .inl ⟨t, .inl hold, rfl⟩

/-- Where the tags come from: a new one has the index in place or a drawn one. -/
theorem tagged_apply {l : Ledger} {m : Move} {index : UInt32} (h : (l.apply m).Tagged index) :
    l.Tagged index ∨ index = l.session.localIndex ∨ index ∈ m.draws := by
  cases m with
  | answered key since => exact (tagged_install h).imp_right .inl
  | accepted index' key since =>
      exact (tagged_install h).imp_right fun heq => .inr (List.mem_singleton.mpr heq)
  | checked slot counter =>
      obtain ⟨t, ht, rfl⟩ := h
      cases slot with
      | current =>
          rcases ht with ht | ht
          · obtain ⟨t', ht', rfl⟩ := mem_map_check ht
            exact .inl ⟨t', .inl ht', rfl⟩
          · exact .inl ⟨t, .inr ht, rfl⟩
      | previous =>
          rcases ht with ht | ht
          · exact .inl ⟨t, .inl ht, rfl⟩
          · obtain ⟨t', ht', rfl⟩ := mem_map_check ht
            exact .inl ⟨t', .inr ht', rfl⟩
  | wiped =>
      obtain ⟨t, ht | ht, -⟩ := h
      · cases ht
      · cases ht
  | _ => exact .inl h

/-- On consistent ledgers keys and windows need not be looked at. -/
theorem sound_iff {l : Ledger} (h : l.Consistent) :
    l.Sound ↔
      (∀ t ∈ l.current, t.index = l.session.localIndex ∨ t.index = l.oldLocalIndex) ∧
      ∀ t ∈ l.previous, l.Kept →
        t.index ≠ l.session.localIndex ∧ t.index ≠ l.oldLocalIndex ∧
          t.index = l.prevSession.localIndex := by
  constructor
  · rintro ⟨hcurrent, hprevious⟩
    refine ⟨fun t ht => ?_, fun t ht hkept => ?_⟩
    · exact (lookup_current_iff l _).mp (hcurrent t ht).1
    · obtain ⟨hlocal, hold, -, hprev⟩ :=
        (lookup_previous_iff l _).mp (hprevious t ht hkept).1
      exact ⟨hlocal, hold, hprev⟩
  · rintro ⟨hcurrent, hprevious⟩
    refine ⟨fun t ht => ⟨?_, (h.current t ht).2.1⟩, fun t ht hkept => ⟨?_, ?_⟩⟩
    · exact (lookup_current_iff l _).mpr (hcurrent t ht)
    · obtain ⟨hlocal, hold, hprev⟩ := hprevious t ht hkept
      exact (lookup_previous_iff l _).mpr ⟨hlocal, hold, hkept.1, hprev⟩
    · exact (h.previous t ht).2 hkept.1

/-- As time passes less is asked of the previous session. -/
theorem sound_tick {l : Ledger} (h : l.Sound) (now : UInt64) : (l.tick now).Sound := by
  refine ⟨h.current, fun t ht hkept => h.previous t ht ⟨hkept.1, ?_⟩⟩
  exact hkept.2.of_le (le_later l.clock now)

theorem consistent_tick {l : Ledger} (h : l.Consistent) (now : UInt64) :
    (l.tick now).Consistent :=
  ⟨h.current, h.previous⟩

/-- After an installation the current tag is found, so all depends on the kept
session. -/
theorem sound_install_iff {l : Ledger} (h : l.Consistent) (kept index : UInt32) (key : Key)
    (since : UInt64) :
    ((l.keep kept).install index key since).Sound ↔
      ∀ t ∈ l.current, l.session.Live l.clock →
        t.index ≠ index ∧ t.index ≠ l.oldLocalIndex ∧ t.index = kept := by
  rw [sound_iff (consistent_install h ..)]
  have hnew : ∀ t ∈ tagOf index key,
      t.index = index ∨ t.index = (l.keep kept).oldLocalIndex := by
    intro t ht
    obtain ⟨-, rfl⟩ := mem_tagOf ht
    exact .inl rfl
  refine (and_iff_right hnew).trans ?_
  change (∀ t ∈ (l.keep kept).current, _) ↔ _
  rw [keep_current]
  refine forall₂_congr fun t ht => ?_
  rw [keep_of_valid (h.current t ht).1]
  exact ⟨fun hkept hlive => hkept ⟨(h.current t ht).1, hlive⟩, fun hkept hlive => hkept hlive.2⟩

/-- A sound ledger stays sound exactly under the moves whose demand it meets. -/
theorem sound_apply_iff {l : Ledger} (h : l.Consistent) (hsound : l.Sound) {m : Move}
    (hfresh : l.FreshFor m) : (l.apply m).Sound ↔ l.Meets m.demand := by
  have hafter := consistent_apply h m
  obtain ⟨hcurrent, hprevious⟩ := (sound_iff h).mp hsound
  cases m with
  | still => exact iff_of_true hsound trivial
  | begun index =>
      rw [sound_iff hafter]
      constructor
      · rintro ⟨hfound, -⟩ t ht
        rcases hfound t ht with hnew | hlocal
        · exact absurd (List.mem_singleton.mpr hnew) (hfresh _ ⟨t, .inl ht, rfl⟩)
        · exact hlocal.symm
      · intro hbegin
        refine ⟨fun t ht => .inr (hbegin t ht).symm, fun t ht hkept => ?_⟩
        obtain ⟨hlocal, -, hprev⟩ := hprevious t ht hkept
        refine ⟨fun hnew => ?_, hlocal, hprev⟩
        exact hfresh _ ⟨t, .inr ht, rfl⟩ (List.mem_singleton.mpr hnew)
  | answered key since =>
      refine (sound_install_iff h ..).trans (forall₂_congr fun t ht => ?_)
      refine ⟨fun hkept hlive => ?_, fun hdead hlive => absurd hlive hdead⟩
      obtain ⟨-, hne, heq⟩ := hkept hlive
      exact hne heq
  | accepted index key since =>
      refine (sound_install_iff h ..).trans (forall₂_congr fun t ht => ?_)
      constructor
      · intro hkept hlive
        obtain ⟨-, hold, hlocal⟩ := hkept hlive
        exact ⟨hlocal.symm, hold.symm⟩
      · intro haccept hlive
        obtain ⟨hlocal, hold⟩ := haccept hlive
        refine ⟨fun hnew => ?_, hold.symm, hlocal.symm⟩
        exact hfresh _ ⟨t, .inl ht, rfl⟩ (List.mem_singleton.mpr hnew)
  | restored index =>
      rw [sound_iff hafter]
      constructor
      · rintro ⟨hfound, hkept⟩
        exact ⟨hfound, fun t ht hlive => (hkept t ht hlive).1⟩
      · rintro ⟨hfound, hkept⟩
        refine ⟨hfound, fun t ht hlive => ?_⟩
        obtain ⟨-, hold, hprev⟩ := hprevious t ht hlive
        exact ⟨hkept t ht hlive, hold, hprev⟩
  | checked slot counter =>
      refine iff_of_true ((sound_iff hafter).mpr ?_) trivial
      cases slot with
      | current =>
          refine ⟨fun t ht => ?_, hprevious⟩
          obtain ⟨t', ht', rfl⟩ := mem_map_check ht
          exact hcurrent t' ht'
      | previous =>
          refine ⟨hcurrent, fun t ht => ?_⟩
          obtain ⟨t', ht', rfl⟩ := mem_map_check ht
          exact hprevious t' ht'
  | dropped =>
      refine iff_of_true ((sound_iff hafter).mpr ⟨hcurrent, ?_⟩) trivial
      rintro t ht ⟨hvalid, -⟩
      cases hvalid
  | wiped =>
      refine iff_of_true ⟨?_, ?_⟩ trivial
      · intro t ht
        cases ht
      · intro t ht
        cases ht

end Ledger

end WgNx.IndexLedger
