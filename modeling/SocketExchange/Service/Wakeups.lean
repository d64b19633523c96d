import SocketExchange.Service.Calls
import SocketExchange.Service.Roles

/-!
# Wake-ups

A session with queued output is registered for writing, and a session without is not.
Only `enqueue` begins a backlog and only a complete drain ends one; both set the flag
and the registration together, and a closed descriptor keeps neither.
-/

namespace SocketExchange

open Containers ClientSession Runs

/-- The registrations and the flag of a session are what its output queue asks for. -/
structure ClientSession.Attended (c : ClientSession) (fd : Int)
    (registered : Finset (Int × Filter)) : Prop where
  armed : (fd, .write) ∈ registered ↔ c.wantWrite = true
  waiting : c.wantWrite = true ↔ c.outbuf ≠ []
  full : ∀ e ∈ c.outbuf, e ≠ []
  read : (fd, .read) ∈ registered

namespace Server

variable {s s' : Server} {fd : Int} {c : ClientSession}

/-- A descriptor's session is attended; a descriptor without one has no registration, unless it
is the listening socket. -/
def AttendedAt (s : Server) (fd : Int) : Prop :=
  match s.sessions.lookup fd with
  | some c => c.Attended fd s.kernel.registered
  | none => fd ≠ s.listenFd → ∀ filter, (fd, filter) ∉ s.kernel.registered

/-- Every descriptor is attended. -/
def Wakeful (s : Server) : Prop := ∀ fd, s.AttendedAt fd

/-- A session is attended to when its registrations are as its buffer asks. -/
theorem attendedAt_some (hc : s.sessions.lookup fd = some c) :
    s.AttendedAt fd ↔ c.Attended fd s.kernel.registered := by
  simp only [AttendedAt, hc]

/-- A descriptor without a session is attended to when nothing is registered on it, or it listens.
-/
theorem attendedAt_none (hnone : s.sessions.lookup fd = none) :
    s.AttendedAt fd ↔ (fd ≠ s.listenFd → ∀ filter, (fd, filter) ∉ s.kernel.registered) := by
  simp only [AttendedAt, hnone]

/-- Two states agree on a descriptor. -/
structure AgreeAt (s s' : Server) (fd : Int) : Prop where
  lookup : s'.sessions.lookup fd = s.sessions.lookup fd
  registered : ∀ filter, (fd, filter) ∈ s'.kernel.registered ↔ (fd, filter) ∈ s.kernel.registered

/-- What agrees with an attended state at a descriptor is attended there. -/
theorem AttendedAt.agree (h : s.AttendedAt fd) (hlisten : s'.listenFd = s.listenFd)
    (hagree : AgreeAt s s' fd) : s'.AttendedAt fd := by
  cases hc : s.sessions.lookup fd with
  | none =>
    rw [attendedAt_none hc] at h
    rw [attendedAt_none (hagree.lookup.trans hc), hlisten]
    exact fun hne filter hmem => h hne filter ((hagree.registered filter).mp hmem)
  | some c =>
    rw [attendedAt_some hc] at h
    rw [attendedAt_some (hagree.lookup.trans hc)]
    exact ⟨(hagree.registered .write).trans h.armed, h.waiting, h.full,
      (hagree.registered .read).mpr h.read⟩

/-- It is enough to look at the one descriptor that a call is about. -/
theorem Wakeful.at (h : Wakeful s) (fd : Int) (hlisten : s'.listenFd = s.listenFd)
    (hagree : ∀ fd', fd' ≠ fd → AgreeAt s s' fd') (hself : s'.AttendedAt fd) : Wakeful s' := by
  intro fd'
  by_cases hfd : fd' = fd
  · rw [hfd]
    exact hself
  · exact (h fd').agree hlisten (hagree fd' hfd)

private theorem agreeAt_update (s : Server) {fd fd' : Int} (hne : fd' ≠ fd)
    (f : ClientSession → ClientSession) : AgreeAt s (s.update fd f) fd' :=
  ⟨UnorderedMap.lookup_modify_ne hne .., fun _ => Iff.rfl⟩

private theorem agreeAt_kqAdd (s : Server) {fd fd' : Int} (hne : fd' ≠ fd) (filter : Filter) :
    AgreeAt s (s.kqAdd fd filter) fd' := by
  refine ⟨rfl, fun filter' => ?_⟩
  have hmem : (fd', filter') ∈ insert (fd, filter) s.kernel.registered ↔
      (fd', filter') = (fd, filter) ∨ (fd', filter') ∈ s.kernel.registered := Finset.mem_insert
  exact hmem.trans (or_iff_right fun he => hne (congrArg Prod.fst he))

private theorem agreeAt_kqDel (s : Server) {fd fd' : Int} (hne : fd' ≠ fd) (filter : Filter) :
    AgreeAt s (s.kqDel fd filter) fd' := by
  refine ⟨rfl, fun filter' => ?_⟩
  have hmem := Finset.mem_erase (s := s.kernel.registered) (a := (fd', filter')) (b := (fd, filter))
  exact hmem.trans (and_iff_right fun he => hne (congrArg Prod.fst he))

/-- Agreement at a descriptor follows through. -/
theorem AgreeAt.trans {s'' : Server} (h : AgreeAt s s' fd) (h' : AgreeAt s' s'' fd) :
    AgreeAt s s'' fd :=
  ⟨h'.lookup.trans h.lookup, fun filter => (h'.registered filter).trans (h.registered filter)⟩

/-! ## What each call does to a descriptor -/

/-- A change that keeps the output side of a session keeps the server wakeful. -/
theorem Wakeful.changed (h : Wakeful s) {f : ClientSession → ClientSession}
    (hf : ∀ c, Keeping c (f c)) (fd : Int) : Wakeful (s.update fd f) := by
  refine h.at fd rfl (fun fd' hne => agreeAt_update s hne f) ?_
  have hlookup : (s.update fd f).sessions.lookup fd = (s.sessions.lookup fd).map f :=
    UnorderedMap.lookup_modify_self ..
  cases hc : s.sessions.lookup fd with
  | none =>
    have hat := (attendedAt_none hc).mp (h fd)
    rw [hc, Option.map_none] at hlookup
    exact (attendedAt_none hlookup).mpr hat
  | some c =>
    have hat := (attendedAt_some hc).mp (h fd)
    rw [hc, Option.map_some] at hlookup
    rw [attendedAt_some hlookup]
    obtain ⟨-, houtbuf, hwant⟩ := hf c
    exact ⟨hat.armed.trans (by rw [hwant]), by rw [hwant, houtbuf]; exact hat.waiting,
      by rw [houtbuf]; exact hat.full, hat.read⟩

/-- What touches neither the sessions nor the registrations disturbs nothing. -/
theorem Wakeful.same (h : Wakeful s) (hsessions : s'.sessions = s.sessions)
    (hregistered : s'.kernel.registered = s.kernel.registered)
    (hlisten : s'.listenFd = s.listenFd) : Wakeful s' := by
  refine fun fd => (h fd).agree hlisten ⟨by rw [hsessions], fun _ => by rw [hregistered]⟩

/-- One backlog takes the place of another. -/
theorem Wakeful.requeue (h : Wakeful s) (hc : s.sessions.lookup fd = some c)
    (hwaits : c.outbuf ≠ []) {outbuf : List Bytes} (hne : outbuf ≠ [])
    (hfull : ∀ e ∈ outbuf, e ≠ []) : Wakeful (s.update fd (setOutbuf outbuf)) := by
  have hat := (attendedAt_some hc).mp (h fd)
  have hset : (s.update fd (setOutbuf outbuf)).sessions.lookup fd = some (setOutbuf outbuf c) :=
    lookup_update_of hc _
  refine h.at fd rfl (fun fd' hne' => agreeAt_update s hne' _) ((attendedAt_some hset).mpr ?_)
  exact ⟨hat.armed, hat.waiting.trans (iff_of_true hwaits hne), hfull, hat.read⟩

/-- A backlog begins, and its session is registered for writing. -/
theorem Wakeful.arm (h : Wakeful s) (hc : s.sessions.lookup fd = some c) {entry : Bytes}
    (hentry : entry ≠ []) :
    Wakeful (((s.update fd (setOutbuf [entry])).kqAdd fd .write).update fd
      (setWantWrite true)) := by
  have hat := (attendedAt_some hc).mp (h fd)
  have hset : (((s.update fd (setOutbuf [entry])).kqAdd fd .write).update fd
      (setWantWrite true)).sessions.lookup fd = some (setWantWrite true (setOutbuf [entry] c)) :=
    lookup_update_of (s := (s.update fd _).kqAdd fd .write) (lookup_update_of hc _) _
  refine h.at fd rfl (fun fd' hne => ?_) ((attendedAt_some hset).mpr ⟨?_, ?_, ?_, ?_⟩)
  · have hqueued := (agreeAt_update s hne (setOutbuf [entry])).trans (agreeAt_kqAdd _ hne .write)
    exact hqueued.trans (agreeAt_update _ hne _)
  · exact iff_of_true (Finset.mem_insert_self ..) rfl
  · exact iff_of_true rfl (List.cons_ne_nil _ _)
  · exact List.forall_mem_singleton.mpr hentry
  · exact Finset.mem_insert_of_mem hat.read

/-- A backlog ends, and the registration for writing with it. -/
theorem Wakeful.disarm (h : Wakeful s) (hc : s.sessions.lookup fd = some c) :
    Wakeful (((s.update fd (setOutbuf [])).kqDel fd .write).update fd (setWantWrite false)) := by
  have hat := (attendedAt_some hc).mp (h fd)
  have hset : (((s.update fd (setOutbuf [])).kqDel fd .write).update fd
      (setWantWrite false)).sessions.lookup fd = some (setWantWrite false (setOutbuf [] c)) :=
    lookup_update_of (s := (s.update fd _).kqDel fd .write) (lookup_update_of hc _) _
  refine h.at fd rfl (fun fd' hne => ?_) ((attendedAt_some hset).mpr ⟨?_, ?_, ?_, ?_⟩)
  · have hemptied := (agreeAt_update s hne (setOutbuf [])).trans (agreeAt_kqDel _ hne .write)
    exact hemptied.trans (agreeAt_update _ hne _)
  · exact iff_of_false (fun hmem => Finset.notMem_erase _ _ hmem) nofun
  · exact iff_of_false nofun fun hne => hne rfl
  · exact List.forall_mem_nil _
  · exact Finset.mem_erase_of_ne_of_mem nofun hat.read

/-- Enqueueing a line keeps the server wakeful. -/
theorem Wakeful.enqueue (h : Wakeful s) (hc : s.sessions.lookup fd = some c) (hfd : c.fd = fd)
    (line : Bytes) : Wakeful (s.enqueue fd line) := by
  have hat := (attendedAt_some hc).mp (h fd)
  have henqueues := enqueue_enqueues hc line
  generalize s.enqueue fd line = s' at henqueues ⊢
  obtain ⟨-, hdone, -⟩ := sendLoop_contract s.kernel.sends (framed line)
  cases henqueues with
  | behind hwaits =>
    have hlogged : Wakeful (s.log [.enqueued c.conn line]) := h.same rfl rfl rfl
    have hframed : framed line ≠ [] := List.append_ne_nil_of_right_ne_nil _ (by decide)
    refine hlogged.requeue hc hwaits (List.append_ne_nil_of_left_ne_nil hwaits _) ?_
    exact List.forall_mem_append.mpr ⟨hat.full, List.forall_mem_singleton.mpr hframed⟩
  | direct => exact h.same rfl rfl rfl
  | held hempty _ hwant => exact absurd hempty (hat.waiting.mp hwant)
  | armed _ hstop =>
    have hleft : (sendLoop s.kernel.sends (framed line)).left ≠ [] := by
      intro hnil
      rw [hdone.mpr hnil] at hstop
      cases hstop
    rw [hfd]
    refine Wakeful.arm (c := c) ?_ hc hleft
    exact h.same rfl rfl rfl

/-- A closed descriptor has no registration left, and the others keep theirs. -/
theorem Wakeful.close (h : Wakeful s) (hc : s.sessions.lookup fd = some c) :
    Wakeful (s.closeSession fd) := by
  have hregistered : ∀ r, r ∈ (s.closeSession fd).kernel.registered ↔
      r ∈ s.kernel.registered ∧ r.1 ≠ fd := by
    intro r
    simp only [closeSession, hc]
    change r ∈ Finset.filter _ _ ↔ _
    rw [Finset.mem_filter, and_congr_left_iff]
    intro hne
    have hne' : ∀ filter, r ≠ (fd, filter) := fun _ he => hne (congrArg Prod.fst he)
    split
    · exact (Finset.mem_erase.trans (and_iff_right (hne' _))).trans
        (Finset.mem_erase.trans (and_iff_right (hne' _)))
    · exact Finset.mem_erase.trans (and_iff_right (hne' _))
  have hlisten : (s.closeSession fd).listenFd = s.listenFd := by
    simp only [closeSession, hc]
    split <;> rfl
  refine h.at fd hlisten (fun fd' hne => ⟨?_, fun filter => ?_⟩) ?_
  · simp only [closeSession, hc]
    rw [lookup_log, eraseSession, AList.lookup_erase_ne hne]
    split <;> rfl
  · exact (hregistered _).trans (and_iff_left hne)
  · rw [attendedAt_none (lookup_closeSession s fd)]
    exact fun _ filter hmem => ((hregistered _).mp hmem).2 rfl

/-- A drained queue is empty exactly when the drain is done. -/
theorem drainLoop_done (sends : List SendResult) (outbuf : List Bytes) :
    (drainLoop sends outbuf).stop = .done ↔ (drainLoop sends outbuf).left = [] := by
  induction sends, outbuf using drainLoop.induct with
  | case1 sends => simp only [drainLoop]
  | case2 outbuf hne =>
    have hstop : outbuf ≠ [] := hne
    simp only [drainLoop, hstop, reduceCtorEq]
  | case3 n sends queue => simp only [drainLoop, if_true, reduceCtorEq]
  | case4 n sends front queue hfront hshort =>
    simp only [drainLoop, if_neg hfront, if_pos hshort, reduceCtorEq]
  | case5 n sends front queue hfront hwhole ih =>
    simp only [drainLoop, if_neg hfront, if_neg hwhole]
    exact ih
  | case6 sends outbuf hne ih =>
    simp only [drainLoop]
    exact ih
  | case7 sends outbuf hne =>
    have hstop : outbuf ≠ [] := hne
    simp only [drainLoop, hstop, reduceCtorEq]
  | case8 sends outbuf hne =>
    have hstop : outbuf ≠ [] := hne
    simp only [drainLoop, hstop, reduceCtorEq]
  | case9 sends outbuf hne =>
    have hstop : outbuf ≠ [] := hne
    simp only [drainLoop, hstop, reduceCtorEq]

/-- Flushing keeps the server wakeful. -/
theorem Wakeful.flush (h : Wakeful s) (hc : s.sessions.lookup fd = some c) :
    Wakeful (s.onWritable fd) := by
  have hat := (attendedAt_some hc).mp (h fd)
  have hdone := drainLoop_done s.kernel.sends c.outbuf
  obtain ⟨-, hfull, -⟩ := drainLoop_contract s.kernel.sends c.outbuf
  have hnothing : c.outbuf = [] → (drainLoop s.kernel.sends c.outbuf).stop = .done := by
    intro hempty
    rw [hempty, drainLoop]
  have hsent : Wakeful (s.transmit c.conn (drainLoop s.kernel.sends c.outbuf).accepted
      (drainLoop s.kernel.sends c.outbuf).sends) := h.same rfl rfl rfl
  have hkept : (drainLoop s.kernel.sends c.outbuf).stop ≠ .done → Wakeful (s.flushed fd c) := by
    intro hstop
    have hwaits : c.outbuf ≠ [] := fun hempty => hstop (hnothing hempty)
    exact hsent.requeue hc hwaits (fun hnil => hstop (hdone.mpr hnil)) (hfull hat.full)
  have hflushes := onWritable_cases hc
  generalize s.onWritable fd = s' at hflushes ⊢
  cases hflushes with
  | settled hstop hwant =>
    by_cases hall : (drainLoop s.kernel.sends c.outbuf).stop = .done
    · have hempty : c.outbuf = [] := by
        by_contra hne
        exact absurd (hat.waiting.mpr hne) (by simp [hwant hall])
      refine hsent.at fd rfl (fun fd' hne => agreeAt_update _ hne _) ?_
      rw [attendedAt_some (lookup_flushed hc), hdone.mp hall]
      exact ⟨hat.armed, hempty ▸ hat.waiting, List.forall_mem_nil _, hat.read⟩
    · exact hkept hall
  | disarmed hstop =>
    rw [flushed, hdone.mp hstop]
    exact hsent.disarm hc
  | failed hstop =>
    have hleft : Wakeful ((s.flushed fd c).log [.sendFailed c.conn]) :=
      (hkept (by simp [hstop])).same rfl rfl rfl
    exact hleft.close (lookup_flushed hc)

/-- A new session keeps the server wakeful. -/
theorem Wakeful.open (h : Wakeful s) {cfd : Int} (hfree : s.Free cfd) :
    Wakeful (s.openSession cfd) := by
  obtain ⟨-, hlisten, hnone⟩ := id hfree
  have hat := (attendedAt_none hnone).mp (h cfd) hlisten
  refine h.at cfd rfl (fun fd' hne => ⟨AList.lookup_insert_ne hne, fun filter => ?_⟩) ?_
  · exact (agreeAt_kqAdd s hne .read).registered filter
  · rw [attendedAt_some (openSession_fresh hfree)]
    refine ⟨iff_of_false (fun hmem => ?_) nofun, iff_of_false nofun fun hne => hne rfl,
      List.forall_mem_nil _, Finset.mem_insert_self ..⟩
    rcases Finset.mem_insert.mp hmem with he | hmem
    · cases he
    · exact hat .write hmem

/-- Every call keeps the server wakeful. -/
theorem Wakeful.call (hs : Consistent s) (h : Wakeful s) (hcall : Call s s') : Wakeful s' := by
  cases hcall with
  | logged => exact h.same rfl rfl rfl
  | booked => exact h.same rfl rfl rfl
  | changed hf => exact h.changed hf _
  | enqueued hc => exact h.enqueue hc (hs.keyed _ _ hc) _
  | closed hc => exact h.close hc
  | opened hfree => exact h.open hfree
  | rehashed =>
    exact fun fd => (h fd).agree rfl ⟨UnorderedMap.lookup_reorder .., fun _ => Iff.rfl⟩

private theorem wakeful_start (kq listenFd : Int) (sends : List SendResult) :
    Wakeful (start kq listenFd sends) := by
  intro fd
  have hnone : (start kq listenFd sends).sessions.lookup fd = none := rfl
  rw [attendedAt_none hnone]
  intro hne filter hmem
  have heq := Finset.mem_singleton.mp hmem
  exact hne (congrArg Prod.fst heq)

/-- Every reachable server is wakeful. -/
theorem Reachable.wakeful (h : Reachable s) : Wakeful s :=
  h.call_invariant wakeful_start (fun _ _ hs hw hcall => hw.call hs hcall)
    fun _ _ _ _ hc hw => hw.flush hc

/-- Whatever the sends return, between any two events a session is registered for writing if and
only if its flag is set, and its flag is set if and only if it has queued output; no queued entry
is empty; every session is registered for reading; and no descriptor without a session has a
registration, except the listening socket. -/
theorem run_wakeful (kq listenFd : Int) (sends : List SendResult) (events : List Event) :
    let s := run dispatch (start kq listenFd sends) events
    (∀ fd c, s.sessions.lookup fd = some c →
      ((fd, .write) ∈ s.kernel.registered ↔ c.wantWrite = true) ∧
      (c.wantWrite = true ↔ c.outbuf ≠ []) ∧ (∀ e ∈ c.outbuf, e ≠ []) ∧
      (fd, .read) ∈ s.kernel.registered) ∧
    ∀ fd filter, (fd, filter) ∈ s.kernel.registered → fd = s.listenFd ∨
      ∃ c, s.sessions.lookup fd = some c := by
  intro s
  have hs : Wakeful s := ((Reachable.start kq listenFd sends).run_dispatch events).wakeful
  refine ⟨fun fd c hc => ?_, fun fd filter hmem => ?_⟩
  · have hat := (attendedAt_some hc).mp (hs fd)
    exact ⟨hat.armed, hat.waiting, hat.full, hat.read⟩
  · cases hc : s.sessions.lookup fd with
    | none =>
      by_contra hne
      exact (attendedAt_none hc).mp (hs fd) (fun he => hne (Or.inl he)) filter hmem
    | some c => exact Or.inr ⟨c, rfl⟩

end Server

end SocketExchange
