import SocketExchange.Service.Orders

/-!
# Lines in a history

The lines that were enqueued in a run, picked by their connection and by the word they
begin with. Entries that are about no order hold none of the lines about orders.
-/

namespace SocketExchange

/-- The enqueued lines of a history that are of a kind, whatever else happened between. -/
def linesWhere (p : Nat → Bytes → Bool) (history : List Obs) : List Bytes :=
  history.filterMap fun
    | .enqueued k line => if p k line then some line else none
    | _ => none

variable {p : Nat → Bytes → Bool}

/-- The chosen lines of two histories, one after the other. -/
theorem linesWhere_append (p : Nat → Bytes → Bool) (h h' : List Obs) :
    linesWhere p (h ++ h') = linesWhere p h ++ linesWhere p h' := List.filterMap_append ..

/-- An enqueued line is chosen or not. -/
theorem linesWhere_enqueued (p : Nat → Bytes → Bool) (k : Nat) (line : Bytes) :
    linesWhere p [.enqueued k line] = if p k line then [line] else [] := by
  simp only [linesWhere, List.filterMap_cons]
  split_ifs <;> rfl

/-- Entries none of whose lines is chosen have no chosen lines. -/
theorem linesWhere_eq_nil {obs : List Obs}
    (h : ∀ k line, .enqueued k line ∈ obs → p k line = false) : linesWhere p obs = [] := by
  rw [linesWhere, List.filterMap_eq_nil_iff]
  intro o ho
  cases o with
  | enqueued k line =>
    dsimp only
    rw [h k line ho]
    rfl
  | _ => rfl

/-- A line sent once to each of several connections is sent once or never to any of them. -/
theorem linesWhere_map_enqueued {k : Nat} {line : Bytes} (hp : ∀ k', p k' line = decide (k' = k))
    {ks : List Nat} (hks : ks.Nodup) :
    linesWhere p (ks.map fun k' => .enqueued k' line) = if k ∈ ks then [line] else [] := by
  induction ks with
  | nil => rfl
  | cons k' ks ih =>
    obtain ⟨hnot, hks⟩ := List.nodup_cons.mp hks
    rw [List.map_cons, ← List.singleton_append, linesWhere_append, linesWhere_enqueued, hp, ih hks]
    by_cases he : k' = k
    · subst he
      rw [if_pos (decide_eq_true rfl), if_neg hnot, if_pos List.mem_cons_self, List.append_nil]
    · have hmem : k ∈ k' :: ks ↔ k ∈ ks := by
        rw [List.mem_cons]
        exact or_iff_right fun h => he h.symm
      rw [if_neg fun h => he (of_decide_eq_true h), List.nil_append]
      simp only [hmem]

/-- Quiet entries hold no line that begins with one of the words about orders. -/
theorem linesWhere_quiet (hp : ∀ k line, p k line = true → firstWord line ∈ orderWords)
    {obs : List Obs} (h : ∀ o ∈ obs, o.Quiet) : linesWhere p obs = [] := by
  refine linesWhere_eq_nil fun k line hmem => ?_
  have hquiet : firstWord line ∉ orderWords := h _ hmem
  exact Bool.eq_false_iff.mpr fun he => hquiet (hp k line he)

namespace Server

variable {s : Server}

/-- The report of a fill to an owner begins with BOUGHT or SOLD. -/
theorem firstWord_reportLine (f : Fill) (side : Side) :
    firstWord (reportLine f side) ∈ [text "BOUGHT", text "SOLD"] := by
  cases side with
  | buy =>
    rw [reportLine, firstWord_msgBought]
    decide
  | sell =>
    rw [reportLine, firstWord_msgSold]
    decide

/-- The reports of a fill to its owners hold no line that begins with another word. -/
theorem linesWhere_ownerVoice (hp : ∀ k line, p k line = true →
    firstWord line ∉ [text "BOUGHT", text "SOLD"]) (party : Int × UInt64) (f : Fill)
    (side : Side) : linesWhere p (s.ownerVoice party (reportLine f side)) = [] := by
  refine linesWhere_eq_nil fun k line hmem => Bool.eq_false_iff.mpr fun he => hp k line he ?_
  obtain ⟨k', hk'⟩ := mem_ownerVoice hmem
  rw [(Obs.enqueued.inj hk').2]
  exact firstWord_reportLine f side

/-- The entries of fills hold no line that begins with a word that replies to an order. -/
theorem linesWhere_fillVoices (hp : ∀ k line, p k line = true →
    firstWord line ∉ [text "BOUGHT", text "SOLD", text "TRADE"]) (fills : List Fill) :
    linesWhere p (fills.flatMap s.fillVoice) = [] := by
  refine linesWhere_eq_nil fun k line hmem => Bool.eq_false_iff.mpr fun he => hp k line he ?_
  obtain ⟨f, -, hmem⟩ := List.mem_flatMap.mp hmem
  rcases mem_fillVoice hmem with h | ⟨k', side, h⟩ | ⟨k', h⟩
  · cases h
  · rw [(Obs.enqueued.inj h).2]
    exact List.mem_append_left [text "TRADE"] (firstWord_reportLine f side)
  · rw [(Obs.enqueued.inj h).2, firstWord_msgTrade]
    decide

end Server

end SocketExchange
