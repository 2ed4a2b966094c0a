import WgNx.TcpRelay

/-!
The connection map against the sockets and the pcbs.

The map is in order if every entry is stored under the descriptor of its own open socket
and every pcb that lwIP may still call back for has a record that is in the map.  Accepts,
errors and aborts keep it so; the two ends of an orderly close do not.
-/

namespace WgNx.TcpTable

open WgNx.OutputMachine WgNx.TcpRelay

section Properties

/-- Every entry is keyed by its own open local socket, and every pcb that lwIP has not
freed has a record in the map as its callback argument. -/
def TableOk (s : Relay) : Prop :=
  (∀ fd id, s.lookup fd = some id →
      (s.conns id).localSock = some fd ∧ s.sockets fd = some id) ∧
    ∀ k pcb, s.pcbs k = some pcb → ∃ fd, s.lookup fd = some pcb.arg

/-- A round of the pass does not meet the end of a local stream whose record still has a
pcb. -/
def NoLocalClose (env : Nat → FdEvents) (p : Pass) (sock : Nat) : Prop :=
  ∀ id owner hup, pollable p.relay sock = some (id, owner) →
    (env sock).poll = .readable .closed hup → (p.relay.conns id).pcb = none

/-- Neither side closes: lwIP hands over neither a FIN nor an error, and no local stream
ends before its pcb is gone. -/
def NeitherCloses (s : Relay) : Action → Prop
  | .recv k p ok _ => ∀ pcb, s.pcbs k = some pcb → pcb.recv = true → p.isSome = true ∧ ok = true
  | .poll env => AllSteps (visit env) (NoLocalClose env) ⟨s, []⟩ s.socks
  | _ => True

/-- While neither side has closed, records, pcbs and entries belong together one to one. -/
structure Matched (s : Relay) : Prop where
  numbered : Numbered s
  keyed : ∀ {fd id}, s.lookup fd = some id →
    (s.conns id).localSock = some fd ∧ s.sockets fd = some id
  live : ∀ {k pcb}, s.pcbs k = some pcb →
    pcb.closing = false ∧ (s.conns k).pcb = some k ∧ ∃ fd, s.lookup fd = some k
  owned : ∀ {id k}, (s.conns id).pcb = some k → (s.pcbs id).isSome = true

theorem tableOk_of_matched {s : Relay} (h : Matched s) : TableOk s := by
  refine ⟨fun fd id => h.keyed, fun k pcb hpcb => ?_⟩
  rw [(h.numbered.arg hpcb).1]
  exact (h.live hpcb).2.2

theorem matched_empty : Matched empty where
  numbered := numbered_empty
  keyed h := by simp [Relay.lookup, empty] at h
  live h := by cases h
  owned h := by cases h

end Properties

section Kept

variable {s t : Relay}

theorem matched_addConnection (h : Matched s) (localPort : UInt16) {fd : Nat}
    (hfree : s.sockets fd = none) : Matched (addConnection s localPort fd) where
  numbered := numbered_addConnection h.numbered localPort fd
  keyed {fd' id} hid := by
    rcases lookup_addConnection hid with ⟨rfl, rfl⟩ | ⟨hne, hold⟩
    · simp [addConnection]
    · have hid' := Nat.ne_of_lt (h.numbered.entry hold).1
      simpa only [addConnection, Function.update_of_ne hne, Function.update_of_ne hid'] using
        h.keyed hold
  live {k pcb} hpcb := by
    by_cases heq : k = s.next
    · subst heq
      simp only [addConnection, Function.update_self, Option.some.injEq] at hpcb ⊢
      subst hpcb
      exact ⟨rfl, trivial, fd, AList.lookup_insert _⟩
    · simp only [addConnection, Function.update_of_ne heq] at hpcb ⊢
      obtain ⟨hopen, hback, fd', hfd'⟩ := h.live hpcb
      refine ⟨hopen, hback, fd', ?_⟩
      have hne : fd' ≠ fd := by
        rintro rfl
        rw [(h.keyed hfd').2] at hfree
        cases hfree
      simpa only [Relay.lookup, addConnection, AList.lookup_insert_ne hne] using hfd'
  owned {id k} hk := by
    by_cases heq : id = s.next
    · subst heq
      simp [addConnection]
    · simp only [addConnection, Function.update_of_ne heq] at hk ⊢
      exact h.owned hk

/-- An entry goes together with its socket and its pcb. -/
theorem matched_removed (h : Matched s) {fd id : Nat} (hid : s.lookup fd = some id)
    (hnumbered : Numbered t) (htable : t.tcpConnections = s.tcpConnections.erase fd)
    (hsockets : t.sockets = Function.update s.sockets fd none)
    (hpcbs : t.pcbs = Function.update s.pcbs id none)
    (hconns : ∀ j, j ≠ id → t.conns j = s.conns j) (hpcb : (t.conns id).pcb = none) :
    Matched t where
  numbered := hnumbered
  keyed {fd' j} hj := by
    have hold : fd' ≠ fd ∧ s.lookup fd' = some j := lookup_erase (s := s) (by
      simpa only [Relay.lookup, Relay.erase, htable] using hj)
    have hne : j ≠ id := fun heq => hold.1 (h.numbered.injective (heq ▸ hold.2) hid)
    rw [hconns j hne, hsockets, Function.update_of_ne hold.1]
    exact h.keyed hold.2
  live {k pcb} hk := by
    rw [hpcbs] at hk
    have hne : k ≠ id := by
      rintro rfl
      simp at hk
    rw [Function.update_of_ne hne] at hk
    obtain ⟨hopen, hback, fd', hfd'⟩ := h.live hk
    refine ⟨hopen, by rw [hconns k hne]; exact hback, fd', ?_⟩
    have hfd : fd' ≠ fd := by
      rintro rfl
      rw [hid, Option.some.injEq] at hfd'
      exact hne hfd'.symm
    rw [Relay.lookup, htable, AList.lookup_erase_ne hfd]
    exact hfd'
  owned {j k} hk := by
    have hne : j ≠ id := by
      rintro rfl
      rw [hpcb] at hk
      cases hk
    rw [hconns j hne] at hk
    rw [hpcbs, Function.update_of_ne hne]
    exact h.owned hk

/-- What an abort leaves. -/
theorem tcpAbort_eq (h : Numbered s) {k : Nat} (hk : (s.pcbs k).isSome = true) :
    tcpAbort s k = (s.setPcb k none).setConn k { s.conns k with pcb := none } := by
  obtain ⟨pcb, hpcb⟩ := Option.isSome_iff_exists.mp hk
  simp only [tcpAbort, hpcb, (h.arg hpcb).1]
  rfl

theorem tcpAbort_of_none {k : Nat} (hk : s.pcbs k = none) : tcpAbort s k = s := by
  simp only [tcpAbort, hk]

theorem matched_tcpAbort (h : Matched s) (k : Nat) : Matched (tcpAbort s k) := by
  have hnumbered := numbered_tcpAbort h.numbered k
  cases hpcb : s.pcbs k with
  | none =>
      rw [tcpAbort_of_none hpcb]
      exact h
  | some pcb =>
      rw [tcpAbort_eq h.numbered (by rw [hpcb]; rfl)] at hnumbered ⊢
      refine ⟨hnumbered, fun {fd id} hid => ?_, fun {j pcb'} hj => ?_, fun {id j} hj => ?_⟩
      · refine ⟨?_, (h.keyed hid).2⟩
        by_cases heq : id = k
        · subst heq
          simpa [Relay.setConn] using (h.keyed hid).1
        · simpa [Relay.setConn, Relay.setPcb, heq] using (h.keyed hid).1
      · have hne : j ≠ k := by
          rintro rfl
          simp [Relay.setConn, Relay.setPcb] at hj
        simp only [Relay.setConn, Relay.setPcb, Function.update_of_ne hne] at hj ⊢
        exact h.live hj
      · have hne : id ≠ k := by
          rintro rfl
          simp [Relay.setConn] at hj
        simp only [Relay.setConn, Relay.setPcb, Function.update_of_ne hne] at hj ⊢
        exact h.owned hj

theorem matched_removeConnection (h : Matched s) (sock : Nat) :
    Matched (removeConnection s sock) := by
  have hnumbered := numbered_removeConnection h.numbered sock
  unfold removeConnection at hnumbered ⊢
  split
  · exact h
  · rename_i id hid
    simp only [hid, (h.keyed hid).1] at hnumbered ⊢
    cases hpcb : (s.conns id).pcb with
    | none =>
        simp only [hpcb] at hnumbered
        have hgone : s.pcbs id = none := by
          rw [← Option.not_isSome_iff_eq_none, Option.isSome_iff_exists]
          rintro ⟨pcb, hlive⟩
          rw [(h.live hlive).2.1] at hpcb
          cases hpcb
        refine matched_removed h hid hnumbered rfl rfl ?_ (fun _ _ => rfl) hpcb
        exact (Function.update_eq_self_iff.mpr hgone.symm).symm
    | some k =>
        obtain rfl := h.numbered.pcb hpcb
        have hlive : ((s.close sock).pcbs k).isSome = true := h.owned hpcb
        simp only [hpcb, tcpAbort_eq (numbered_close h.numbered sock) hlive] at hnumbered ⊢
        refine matched_removed h hid hnumbered rfl rfl rfl (fun j hne => ?_) ?_
        · exact Function.update_of_ne hne _ _
        · simp [Relay.erase, Relay.setConn]

theorem matched_acceptClient (h : Matched s) (localPort : UInt16) {fd : Nat}
    (hfree : s.sockets fd = none) (newOk connectOk : Bool) :
    Matched (acceptClient s localPort fd newOk connectOk) := by
  have hadded := matched_addConnection h localPort hfree
  have hlookup : (addConnection s localPort fd).lookup fd = some s.next := AList.lookup_insert _
  unfold acceptClient
  split
  · exact h
  · split
    · exact hadded
    · have hnumbered :=
        numbered_erase (numbered_close (numbered_tcpAbort hadded.numbered s.next) fd) fd
      have hlive : ((addConnection s localPort fd).pcbs s.next).isSome = true := by
        simp [addConnection]
      rw [tcpAbort_eq hadded.numbered hlive] at hnumbered ⊢
      refine matched_removed hadded hlookup hnumbered rfl rfl rfl (fun j hne => ?_) ?_
      · exact Function.update_of_ne hne _ _
      · simp [Relay.erase, Relay.close, Relay.setConn]

theorem matched_onTcpConnected (h : Matched s) {k : Nat} {pcb : TcpPcb}
    (hpcb : s.pcbs k = some pcb) (ok : Bool) :
    Matched (onTcpConnected s pcb.arg k pcb ok) := by
  have hnumbered := numbered_step s (.connected k ok) h.numbered
  simp only [step, hpcb] at hnumbered
  obtain ⟨hopen, hback, fd, hfd⟩ := h.live hpcb
  rw [(h.numbered.arg hpcb).1] at hnumbered ⊢
  unfold onTcpConnected at hnumbered ⊢
  split
  · exact h
  · rename_i hok
    rw [if_neg hok] at hnumbered
    have hconns : ∀ j, ((s.setConn k { s.conns k with connected := true }).conns j).localSock =
        (s.conns j).localSock ∧
        ((s.setConn k { s.conns k with connected := true }).conns j).pcb = (s.conns j).pcb := by
      intro j
      by_cases heq : j = k
      · subst heq
        simp [Relay.setConn]
      · simp [Relay.setConn, heq]
    refine ⟨hnumbered, fun {fd' id} hid => ?_, fun {j pcb'} hj => ?_, fun {id j} hj => ?_⟩
    · exact ⟨(hconns id).1.trans (h.keyed hid).1, (h.keyed hid).2⟩
    · change _ ∧ ((s.setConn k { s.conns k with connected := true }).conns j).pcb = some j ∧ _
      rw [(hconns j).2]
      by_cases heq : j = k
      · subst heq
        simp only [Relay.setPcb, Function.update_self, Option.some.injEq] at hj
        subst hj
        exact ⟨hopen, hback, fd, hfd⟩
      · simp only [Relay.setPcb, Function.update_of_ne heq] at hj
        exact h.live hj
    · change ((s.setConn k { s.conns k with connected := true }).conns id).pcb = some j at hj
      rw [(hconns id).2] at hj
      by_cases heq : id = k
      · subst heq
        simp [Relay.setPcb]
      · simp only [Relay.setPcb, Function.update_of_ne heq]
        exact h.owned hj

end Kept

section Passes

variable {env : Nat → FdEvents} {p : Pass} {sock : Nat}

theorem visit_relay_of_noLocalClose (h : NoLocalClose env p sock) :
    (visit env p sock).1.relay = p.relay := by
  rcases visit_relay_cases env p sock with hsame | ⟨id, owner, hup, hpoll, hread, hclosed⟩
  · exact hsame
  · rw [hclosed]
    simp only [closePcb, h id owner hup hpoll hread]

theorem visits_relay_of_noLocalClose {socks : List Nat}
    (h : AllSteps (visit env) (NoLocalClose env) p socks) :
    (run (visit env) p socks).1.relay = p.relay := by
  induction socks generalizing p with
  | nil => rfl
  | cons sock rest ih => exact (ih h.2).trans (visit_relay_of_noLocalClose h.1)

/-- lwIP has a pcb that its record has forgotten. -/
def Stray (s : Relay) (id : Nat) : Prop :=
  (s.conns id).pcb = none ∧ (s.pcbs id).isSome = true

/-- An entry that the pass will remove has a stray pcb. -/
def Doomed (p : Pass) : Prop :=
  ∃ fd id, fd ∈ p.toRemove ∧ p.relay.lookup fd = some id ∧ Stray p.relay id

/-- A record that knows its pcb knows one that lwIP has not freed. -/
def Owning (s : Relay) : Prop :=
  Numbered s ∧ ∀ id k, (s.conns id).pcb = some k → (s.pcbs id).isSome = true

theorem lookup_closePcb (s : Relay) (id fd : Nat) : (closePcb s id).lookup fd = s.lookup fd := by
  unfold closePcb
  split <;> rfl

theorem closePcb_eq {s : Relay} (h : Numbered s) {id k : Nat} (hk : (s.conns id).pcb = some k) :
    closePcb s id =
      (s.setPcb id ((s.pcbs id).map fun pcb => { pcb with closing := true })).setConn id
        { s.conns id with pcb := none } := by
  obtain rfl := h.pcb hk
  simp only [closePcb, hk]

theorem closePcb_of_none {s : Relay} {id : Nat} (hk : (s.conns id).pcb = none) :
    closePcb s id = s := by
  simp only [closePcb, hk]

/-- Closing a pcb makes it a stray and leaves all others alone. -/
theorem stray_closePcb {s : Relay} (h : Owning s) {id k : Nat} (hk : (s.conns id).pcb = some k) :
    Stray (closePcb s id) id := by
  rw [closePcb_eq h.1 hk]
  have hlive := h.2 id k hk
  simpa [Stray, Relay.setConn, Relay.setPcb] using hlive

theorem closePcb_other {s : Relay} (h : Numbered s) {id j : Nat} (hne : j ≠ id) :
    (closePcb s id).conns j = s.conns j ∧ (closePcb s id).pcbs j = s.pcbs j := by
  cases hk : (s.conns id).pcb with
  | none => rw [closePcb_of_none hk]; exact ⟨rfl, rfl⟩
  | some k =>
      rw [closePcb_eq h hk]
      exact ⟨Function.update_of_ne hne _ _, Function.update_of_ne hne _ _⟩

theorem owning_closePcb {s : Relay} (h : Owning s) (id : Nat) : Owning (closePcb s id) := by
  refine ⟨numbered_closePcb h.1 id, fun j k hj => ?_⟩
  by_cases heq : j = id
  · subst heq
    cases hk : (s.conns j).pcb with
    | none =>
        rw [closePcb_of_none hk] at hj ⊢
        exact h.2 j k hj
    | some k' => exact (stray_closePcb h hk).2
  · rw [(closePcb_other h.1 heq).1] at hj
    rw [(closePcb_other h.1 heq).2]
    exact h.2 j k hj

theorem stray_closePcb_kept {s : Relay} (h : Numbered s) {j : Nat} (hj : Stray s j) (id : Nat) :
    Stray (closePcb s id) j := by
  by_cases heq : j = id
  · subst heq
    rw [closePcb_of_none hj.1]
    exact hj
  · unfold Stray
    rw [(closePcb_other h heq).1, (closePcb_other h heq).2]
    exact hj

theorem owning_visit (p : Pass) (sock : Nat) (h : Owning p.relay) :
    Owning (visit env p sock).1.relay := by
  rcases visit_relay_cases env p sock with hsame | ⟨id, owner, hup, -, -, hclosed⟩
  · rw [hsame]
    exact h
  · rw [hclosed]
    exact owning_closePcb h id

/-- What is doomed stays so to the end of the first loop. -/
theorem doomed_visit (h : Owning p.relay) (hdoomed : Doomed p) (sock : Nat) :
    Doomed (visit env p sock).1 := by
  obtain ⟨fd, id, hmem, hid, hstray⟩ := hdoomed
  have hmore : ∀ more, fd ∈ p.toRemove ++ more := fun more => List.mem_append_left _ hmem
  unfold visit
  split
  · exact ⟨fd, id, hmem, hid, hstray⟩
  · rename_i id' owner hpoll
    split
    · exact ⟨fd, id, hmore _, hid, hstray⟩
    · exact ⟨fd, id, hmore _, hid, hstray⟩
    · exact ⟨fd, id, hmem, hid, hstray⟩
    · exact ⟨fd, id, hmore _, (lookup_closePcb _ _ _).trans hid,
        stray_closePcb_kept h.1 hstray id'⟩
    · exact ⟨fd, id, hmore _, hid, hstray⟩

/-- A local stream that ends while its record has a pcb dooms the entry. -/
theorem noLocalClose_of_not_doomed (h : Owning p.relay) (hnot : ¬ Doomed (visit env p sock).1) :
    NoLocalClose env p sock := by
  intro id owner hup hpoll hread
  by_contra hsome
  obtain ⟨k, hk⟩ := Option.ne_none_iff_exists'.mp hsome
  apply hnot
  simp only [visit, hpoll, hread]
  exact ⟨sock, id, List.mem_append_right _ (List.mem_singleton_self sock),
    (lookup_closePcb _ _ _).trans (pollable_spec hpoll).1, stray_closePcb h hk⟩

theorem lookup_tcpAbort (s : Relay) (k fd : Nat) : (tcpAbort s k).lookup fd = s.lookup fd := by
  unfold tcpAbort
  split <;> rfl

theorem lookup_removeConnection (s : Relay) (sock fd : Nat) :
    (removeConnection s sock).lookup fd = if fd = sock then none else s.lookup fd := by
  unfold removeConnection
  split
  · rename_i hnone
    split
    · rename_i heq
      rw [heq, hnone]
    · rfl
  · rename_i id hid
    have hkept : ∀ t : Relay, (∀ fd', t.lookup fd' = s.lookup fd') →
        (t.erase sock).lookup fd = if fd = sock then none else s.lookup fd := by
      intro t ht
      split
      · rename_i heq
        rw [heq]
        exact AList.lookup_erase _ _
      · rename_i hne
        rw [← ht fd]
        exact AList.lookup_erase_ne hne
    apply hkept
    intro fd'
    cases (s.conns id).localSock with
    | none =>
        cases (s.conns id).pcb with
        | none => rfl
        | some k => exact lookup_tcpAbort _ _ _
    | some sock' =>
        cases (s.conns id).pcb with
        | none => rfl
        | some k => exact lookup_tcpAbort _ _ _

theorem lookup_removals (s : Relay) (socks : List Nat) (fd : Nat) :
    (socks.foldl removeConnection s).lookup fd = if fd ∈ socks then none else s.lookup fd := by
  induction socks generalizing s with
  | nil => simp
  | cons sock rest ih =>
      rw [List.foldl_cons, ih, lookup_removeConnection]
      by_cases hrest : fd ∈ rest
      · simp [hrest]
      · by_cases heq : fd = sock <;> simp [hrest, heq]

/-- Aborting another pcb does not end a stray one. -/
theorem stray_tcpAbort {s : Relay} (h : Numbered s) {id k : Nat} (hne : id ≠ k)
    (hstray : Stray s id) : Stray (tcpAbort s k) id := by
  cases hpcb : s.pcbs k with
  | none =>
      rw [tcpAbort_of_none hpcb]
      exact hstray
  | some pcb =>
      rw [tcpAbort_eq h (by rw [hpcb]; rfl)]
      simpa [Stray, Relay.setConn, Relay.setPcb, Function.update_of_ne hne] using hstray

theorem stray_removeConnection {s : Relay} {id : Nat} (h : Numbered s ∧ Stray s id)
    (sock : Nat) : Numbered (removeConnection s sock) ∧ Stray (removeConnection s sock) id := by
  refine removeConnection_rule (P := fun t => Numbered t ∧ Stray t id) h ?_ ?_ ?_
  · rintro t fd ⟨hnumbered, hstray⟩
    exact ⟨numbered_close hnumbered fd, hstray⟩
  · rintro t j k - hk ⟨hnumbered, hstray⟩
    refine ⟨numbered_tcpAbort hnumbered k, stray_tcpAbort hnumbered ?_ hstray⟩
    -- the pcb that is aborted is one its record knows
    rintro rfl
    obtain rfl := h.1.pcb hk
    rw [h.2.1] at hk
    cases hk
  · rintro t ⟨hnumbered, hstray⟩
    exact ⟨numbered_erase hnumbered sock, hstray⟩

/-- After the second loop a doomed entry is gone and its pcb is not. -/
theorem not_tableOk_of_doomed (h : Numbered p.relay) (hdoomed : Doomed p) :
    ¬ TableOk (p.toRemove.foldl removeConnection p.relay) := by
  rintro ⟨-, hpcbs⟩
  obtain ⟨fd, id, hmem, hid, hstray⟩ := hdoomed
  obtain ⟨hnumbered, -, hlive⟩ := List.foldlRecOn p.toRemove removeConnection
    (motive := fun t => Numbered t ∧ Stray t id) ⟨h, hstray⟩
    fun t ht sock _ => stray_removeConnection ht sock
  obtain ⟨pcb, hpcb⟩ := Option.isSome_iff_exists.mp hlive
  obtain ⟨fd', hfd'⟩ := hpcbs id pcb hpcb
  rw [(hnumbered.arg hpcb).1, lookup_removals] at hfd'
  split at hfd'
  · cases hfd'
  · rename_i hkept
    exact hkept (h.injective hid hfd' ▸ hmem)

theorem noLocalCloses_of_tableOk {s : Relay} (h : Matched s)
    (hok : TableOk (pollTcpConnections s env).1) :
    AllSteps (visit env) (NoLocalClose env) ⟨s, []⟩ s.socks := by
  have howning : Owning s := ⟨h.numbered, fun id k => h.owned⟩
  have hlast : ¬ Doomed (run (visit env) ⟨s, []⟩ s.socks).1 := fun hdoomed =>
    not_tableOk_of_doomed (numbered_visits h.numbered env s.socks) hdoomed hok
  have hall := (allStates_iff_last (I := fun p => Owning p.relay) (R := fun p => ¬ Doomed p)
    owning_visit (fun p sock hp hnot hdoomed => hnot (doomed_visit hp hdoomed sock)) howning
    s.socks).mpr hlast
  exact hall.allSteps owning_visit (fun p sock hp => noLocalClose_of_not_doomed hp) howning

end Passes

section Runs

theorem matched_step (s : Relay) (a : Action) (h : Matched s) (hclean : NeitherCloses s a) :
    Matched (step s a).1 := by
  cases a with
  | accept localPort fd newOk connectOk =>
      simp only [step]
      split
      · exact h
      · rename_i hfree
        exact matched_acceptClient h localPort (Option.not_isSome_iff_eq_none.mp hfree) newOk
          connectOk
  | connected k ok =>
      simp only [step]
      split
      · exact h
      · rename_i pcb hpcb
        exact matched_onTcpConnected h hpcb ok
  | recv k p ok sent =>
      simp only [step]
      split
      · exact h
      · rename_i pcb hpcb
        split
        · rename_i hrecv
          obtain ⟨hsome, hok⟩ := hclean pcb hpcb hrecv
          obtain ⟨buf, rfl⟩ := Option.isSome_iff_exists.mp hsome
          simp only [onTcpRecv, hok, Bool.not_true, Bool.false_eq_true, if_false]
          exact h
        · exact h
  | error k => exact matched_tcpAbort h k
  | finished k =>
      simp only [step]
      split
      · exact h
      · rename_i pcb hpcb
        rw [(h.live hpcb).1]
        exact h
  | poll env =>
      simp only [step, pollTcpConnections, visits_relay_of_noLocalClose hclean]
      exact List.foldlRecOn _ _ h fun t ht sock _ => matched_removeConnection ht sock

/-- lwIP reports the end of a stream: the entry stays under a descriptor that is closed. -/
theorem not_tableOk_closeLocal {s : Relay} (h : Matched s) {k : Nat} {pcb : TcpPcb}
    (hpcb : s.pcbs k = some pcb) : ¬ TableOk (closeLocal s k) := by
  rintro ⟨hkeys, -⟩
  obtain ⟨-, -, fd, hfd⟩ := h.live hpcb
  have hlookup : (closeLocal s k).lookup fd = some k := by
    simp only [closeLocal, (h.keyed hfd).1]
    exact hfd
  have hsock := (hkeys fd k hlookup).1
  simp [closeLocal, (h.keyed hfd).1, Relay.setConn] at hsock

theorem neitherCloses_of_tableOk (s : Relay) (a : Action) (h : Matched s)
    (hok : TableOk (step s a).1) : NeitherCloses s a := by
  cases a with
  | recv k p ok sent =>
      intro pcb hpcb hrecv
      have hbroken := not_tableOk_closeLocal h hpcb
      simp only [step, hpcb, hrecv, if_true, (h.numbered.arg hpcb).1] at hok
      cases p with
      | none => exact absurd hok hbroken
      | some buf =>
          cases ok with
          | false => exact absurd hok hbroken
          | true => exact ⟨rfl, rfl⟩
  | poll env => exact noLocalCloses_of_tableOk h hok
  | accept localPort fd newOk connectOk => trivial
  | connected k ok => trivial
  | error k => trivial
  | finished k => trivial

/-- From a relay without connections: the map is in order in every state exactly if
neither side ever closes a connection. -/
theorem table_ok_iff (actions : List Action) :
    AllStates step TableOk empty actions ↔ AllSteps step NeitherCloses empty actions :=
  allStates_iff_allSteps_of_kept step (fun _ => tableOk_of_matched) matched_step
    neitherCloses_of_tableOk matched_empty

/-- A relay with one connection on descriptor 5. -/
def connectedOnce : List Action := [.accept 80 5 true true, .connected 0 true]

/-- A FIN of the target leaves an entry under the closed descriptor 5; the end of the local
stream erases the record of a pcb that lwIP still calls back for. -/
theorem closes_break_table :
    let fin := (run step empty (connectedOnce ++ [.recv 0 none true 0])).1
    let eof := (run step empty
      (connectedOnce ++ [.poll fun _ => ⟨.readable .closed false, true⟩])).1
    (fin.lookup 5 = some 0 ∧ (fin.conns 0).localSock = none ∧ fin.sockets 5 = none) ∧
      eof.lookup 5 = none ∧ (eof.pcbs 0).map TcpPcb.recv = some true ∧
      (eof.pcbs 0).map TcpPcb.arg = some 0 := by
  decide +kernel

end Runs

end WgNx.TcpTable
