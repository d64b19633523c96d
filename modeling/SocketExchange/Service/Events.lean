import SocketExchange.Service.Reassembly

/-!
# The output of an event

An event either flushes the backlog of its descriptor or is a sequence of calls. Either way what
it does to the channels can be told beforehand from its entries, and as long as no send on a
connection fails hard, what the kernel has accepted on it begins the lines enqueued to it.
-/

namespace SocketExchange

open Containers ClientSession Runs

namespace Server

variable {s s' : Server} {fd : Int} {c : ClientSession} {k : Nat} {e : Event}

/-! ## Events as calls -/

private theorem calls_acceptNew (results : List AcceptResult) (s : Server) :
    Calls s (s.acceptNew results) := by
  induction results generalizing s with
  | nil => exact .refl
  | cons result results ih =>
    cases result with
    | accepted cfd =>
      rw [acceptNew]
      split
      · rename_i hfree
        exact (Call.opened hfree).calls.trans (ih _)
      · exact ih s
    | again => exact .refl
    | eintr => exact ih s
    | aborted => exact ih s
    | failed => exact .refl

private theorem calls_handleLines (fuel : Nat) (s : Server) (fd : Int) :
    Calls s (handleLines fuel s fd).1 := by
  induction fuel generalizing s with
  | zero => exact .refl
  | succ fuel ih =>
    rw [handleLines]
    cases htaken : s.takeLine fd with
    | none => exact .refl
    | some r =>
      have hline : Calls s r.1 := act_line htaken ▸ calls_act s (a := .line fd) (by simp)
      obtain ⟨s', alive⟩ := r
      cases alive with
      | true => exact hline.trans (ih s')
      | false => exact hline

private theorem calls_recvLoop (recvs : List RecvResult) (s : Server) (fd : Int) :
    Calls s (s.recvLoop fd recvs) := by
  induction recvs generalizing s with
  | nil => exact .refl
  | cons result recvs ih =>
    have hhangup : Calls s (s.hangup fd) := calls_act s (a := .hangup fd) (by simp)
    cases result with
    | data chunk =>
      have hfed : Calls s (s.feed fd chunk) := calls_act s (a := .feed fd chunk) (by simp)
      have hlines := hfed.trans (calls_handleLines ((s.feed fd chunk).buffered fd) _ fd)
      rw [recvLoop]
      split
      · rename_i s' h
        rw [h] at hlines
        exact hlines.trans (ih s')
      · rename_i s' h
        rw [h] at hlines
        exact hlines
    | fin => exact hhangup
    | eintr => exact ih s
    | again => exact .refl
    | reset => exact hhangup
    | failed => exact hhangup

private theorem calls_onReadable (s : Server) (fd : Int) (recvs : List RecvResult) :
    Calls s (s.onReadable fd recvs) := by
  unfold onReadable
  split
  · exact .refl
  · exact calls_recvLoop recvs s fd

/-- In the event the loop flushes a backlog. -/
def Writes (s : Server) (e : Event) : Prop :=
  e.event.error = false ∧ e.event.ident ≠ s.listenFd ∧ e.event.filter = .write

instance (s : Server) (e : Event) : Decidable (s.Writes e) :=
  inferInstanceAs (Decidable (_ ∧ _))

/-- An event that writes is rehashing and flushing. -/
theorem Writes.dispatch (h : s.Writes e) :
    s.dispatch e = (s.rehash e.sessionOrder e.bookOrder).onWritable e.event.ident := by
  obtain ⟨herror, hlisten, hfilter⟩ := h
  have hlisten' : e.event.ident ≠ (s.rehash e.sessionOrder e.bookOrder).listenFd := hlisten
  simp only [Server.dispatch, herror, Bool.false_eq_true, if_false, if_neg hlisten', hfilter]

/-- Any other event is a sequence of calls. -/
theorem calls_dispatch (h : ¬ s.Writes e) : Calls s (s.dispatch e) := by
  have hrehash : Calls s (s.rehash e.sessionOrder e.bookOrder) :=
    (Call.rehashed e.sessionOrder e.bookOrder).calls
  refine hrehash.trans ?_
  unfold Server.dispatch
  dsimp only
  split
  · split
    · exact calls_close _ _
    · exact .refl
  · rename_i herror
    split
    · exact calls_acceptNew _ _
    · rename_i hlisten
      split
      · have hread := calls_onReadable (s.rehash e.sessionOrder e.bookOrder) e.event.ident e.recvs
        split
        · exact hread.trans (calls_close _ _)
        · exact hread
      · rename_i hfilter
        exact absurd ⟨Bool.eq_false_iff.mpr herror, hlisten, hfilter⟩ h

/-! ## What an event delivers -/

/-- What an event does to the channels: a flush, or what its entries say. -/
def eventOutputs (s : Server) (e : Event) : List Output :=
  (if s.Writes e then
    ((s.sessions.lookup e.event.ident).map fun c => Output.flush c.conn).toList else []) ++
    (s.since (s.dispatch e)).filterMap Obs.output

/-- No send of the connection fails hard in the event. -/
def EventSendsWell (k : Nat) (s : Server) (e : Event) : Prop :=
  s.channels.Unfailing k (s.eventOutputs e)

instance (k : Nat) (s : Server) (e : Event) : Decidable (EventSendsWell k s e) :=
  inferInstanceAs (Decidable (Channels.Unfailing ..))

/-- Rearranging the tables delivers nothing. -/
theorem rehash_delivers (hs : Consistent s) (sessionOrder : List Int) (bookOrder : List Bytes) :
    (s.rehash sessionOrder bookOrder).channels = s.channels ∧
      ∀ k, Delivered k s → Delivered k (s.rehash sessionOrder bookOrder) := by
  have hcall : Call s (s.rehash sessionOrder bookOrder) := .rehashed ..
  have hnone : ∀ {obs}, (s.rehash sessionOrder bookOrder).history = s.history ++ obs → obs = [] :=
    fun h => List.append_cancel_left (h.symm.trans (List.append_nil _).symm)
  constructor
  · obtain ⟨obs, hhistory, hchannels⟩ := hcall.channels hs
    rw [hchannels, hnone hhistory]
    rfl
  · intro k h
    obtain ⟨obs, hhistory, -, hdelivers⟩ := hcall.delivers hs k
    obtain rfl := hnone hhistory
    exact hdelivers h trivial

/-- Rehashing does not change what a descriptor leads to. -/
theorem lookup_rehash (s : Server) (sessionOrder : List Int) (bookOrder : List Bytes) (fd : Int) :
    (s.rehash sessionOrder bookOrder).sessions.lookup fd = s.sessions.lookup fd :=
  UnorderedMap.lookup_reorder ..

/-- An event moves the channels by its outputs. -/
theorem dispatch_channels (hs : Consistent s) (e : Event) :
    (s.dispatch e).channels = run Channels.step s.channels (s.eventOutputs e) := by
  rw [eventOutputs]
  by_cases hwrites : s.Writes e
  · obtain ⟨hchannels, -⟩ := rehash_delivers hs e.sessionOrder e.bookOrder
    have hs' : Consistent (s.rehash e.sessionOrder e.bookOrder) :=
      hs.act (.rehash e.sessionOrder e.bookOrder)
    have hlookup := s.lookup_rehash e.sessionOrder e.bookOrder e.event.ident
    rw [if_pos hwrites, hwrites.dispatch]
    cases hc : s.sessions.lookup e.event.ident with
    | none =>
      rw [hc] at hlookup
      have hsame : (s.rehash e.sessionOrder e.bookOrder).onWritable e.event.ident =
          s.rehash e.sessionOrder e.bookOrder := by simp only [onWritable, hlookup]
      have hsince : s.since (s.rehash e.sessionOrder e.bookOrder) = [] :=
        since_of_append (List.append_nil _).symm
      rw [hsame, hsince, hchannels]
      rfl
    | some c =>
      rw [hc] at hlookup
      obtain ⟨obs, hhistory, hflushed, -⟩ := onWritable_channels hs' hlookup
      have hsince : s.since ((s.rehash e.sessionOrder e.bookOrder).onWritable e.event.ident) =
          obs := since_of_append hhistory
      rw [hsince, hflushed, hchannels]
      rfl
  · obtain ⟨obs, hhistory, hchannels, -⟩ := (calls_dispatch hwrites).delivers hs 0
    rw [if_neg hwrites, since_of_append hhistory]
    exact hchannels

/-- What the kernel has accepted stays accepted. -/
theorem wire_dispatch (hs : Consistent s) (e : Event) (k : Nat) :
    s.kernel.wire k <+: (s.dispatch e).kernel.wire k := by
  have hstep : ∀ (ch : Channels) (o : Output), ch.wire k <+: (ch.step o).wire k := by
    intro ch o
    by_cases hk : k = o.conn
    · subst hk
      cases o with
      | line k line =>
        rw [Channels.step]
        split
        · exact List.prefix_rfl
        · simp [Output.conn]
      | flush k => simp [Channels.step, Output.conn]
      | drop k => exact List.prefix_rfl
    · rw [(Channels.content_other ch (Ne.symm hk)).1]
  have hrun := run_preorder (r := fun ch ch' : Channels => ch.wire k <+: ch'.wire k)
    (fun _ => List.prefix_rfl) List.IsPrefix.trans hstep s.channels (s.eventOutputs e)
  rwa [← dispatch_channels hs e] at hrun

/-- An event none of whose sends on the connection fails keeps what has been delivered. -/
theorem Delivered.dispatch (hs : Consistent s) (h : Delivered k s) (hok : EventSendsWell k s e) :
    Delivered k (s.dispatch e) := by
  by_cases hwrites : s.Writes e
  · obtain ⟨hchannels, hdelivers⟩ := rehash_delivers hs e.sessionOrder e.bookOrder
    have hdelivered := hdelivers k h
    have hs' : Consistent (s.rehash e.sessionOrder e.bookOrder) :=
      hs.act (.rehash e.sessionOrder e.bookOrder)
    have hlookup := s.lookup_rehash e.sessionOrder e.bookOrder e.event.ident
    rw [hwrites.dispatch]
    cases hc : s.sessions.lookup e.event.ident with
    | none =>
      rw [hc] at hlookup
      simpa only [onWritable, hlookup] using hdelivered
    | some c =>
      rw [hc] at hlookup
      rw [EventSendsWell, eventOutputs, if_pos hwrites, hc] at hok
      refine hdelivered.flush hs' hlookup ?_
      rw [hchannels]
      exact hok.1
  · obtain ⟨obs, hhistory, -, hdelivers⟩ := (calls_dispatch hwrites).delivers hs k
    rw [EventSendsWell, eventOutputs, if_neg hwrites, since_of_append hhistory] at hok
    exact hdelivers h hok

end Server

end SocketExchange
