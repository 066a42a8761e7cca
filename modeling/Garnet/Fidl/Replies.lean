import Garnet.Fidl.Interests

/-! Runs of the client: replies go to the queries that they answer, and which interests are left at
the end. -/

namespace Garnet.Fidl
open List
open Function (update)

namespace Client

/-- The query that a message answers, with the id that it comes under. -/
def answered (m : MessageBuf) : Option (Nat × Nat) := m.request.map fun q => (q, m.txId)

/-- The replies that can still arrive, with their ids. -/
def owed (c : Client) : List (Nat × Nat) := c.requests ++ (c.channel ++ c.inHand).filterMap answered

structure Good (c : Client) : Prop where
  inv : Inv c.interests c.stage c.owed
  events : ∀ m ∈ c.channel ++ c.inHand, m.request = none → m.txId = 0
  queue : ∀ m ∈ c.queue, m.request = none

variable {c c' : Client} {q id t : Nat} {buf : MessageBuf}

theorem Good.storeMessage (h : c.Good) (hbuf : buf ∈ c.inHand) : (c.storeMessage buf).Good := by
  have hperm : c.inHand.Perm (buf :: c.inHand.erase buf) := perm_cons_erase hbuf
  have howed : c.owed.Perm ((answered buf).toList ++
      (c.requests ++ (c.channel ++ c.inHand.erase buf).filterMap answered)) := by
    have hall : (c.channel ++ c.inHand).Perm (buf :: (c.channel ++ c.inHand.erase buf)) :=
      (hperm.append_left _).trans perm_middle
    refine ((hall.filterMap answered).append_left _).trans ?_
    cases hb : answered buf with
    | none => rw [filterMap_cons_none hb]; exact .refl _
    | some a => rw [filterMap_cons_some hb]; exact perm_middle
  have hevents : ∀ m ∈ c.channel ++ c.inHand.erase buf, m.request = none → m.txId = 0 := by
    intro m hm
    refine h.events m ?_
    rcases mem_append.mp hm with hm | hm
    · exact mem_append_left _ hm
    · exact mem_append_right _ (mem_of_mem_erase hm)
  have hinv := h.inv.perm howed
  unfold Client.storeMessage
  obtain ⟨t, _ | q⟩ := buf
  · obtain rfl : t = 0 := h.events _ (mem_append_right _ hbuf) rfl
    rw [if_pos rfl]
    refine ⟨hinv, hevents, fun m hm => ?_⟩
    rcases mem_append.mp hm with hm | hm
    · exact h.queue m hm
    · rw [mem_singleton.mp hm]
  · obtain ⟨hne, hinv⟩ := hinv.store
    rw [if_neg hne]
    exact ⟨hinv, hevents, h.queue⟩

theorem send_perm (c : Client) (m : MessageBuf) :
    ((c.channel ++ [m]) ++ c.inHand).Perm (m :: (c.channel ++ c.inHand)) := by
  rw [append_assoc]
  exact perm_middle

theorem Good.send (h : c.Good) {m : MessageBuf} (hm : m.request = none → m.txId = 0) :
    ∀ x ∈ (c.channel ++ [m]) ++ c.inHand, x.request = none → x.txId = 0 := by
  intro x hx
  rcases mem_cons.mp ((c.send_perm m).mem_iff.mp hx) with rfl | hx
  · exact hm
  · exact h.events x hx

theorem Good.step (h : c.Good) (hs : Step (2 ^ 32 - 1) c c') : c'.Good := by
  cases hs with
  | register hq hk hid => exact ⟨h.inv.register hq hk (by omega), h.events, h.queue⟩
  | @write q id hq =>
    have htxid : txidOf id = id + 1 := Nat.mod_eq_of_lt (h.inv.bound_of (.inl hq) id rfl)
    refine ⟨?_, h.events, h.queue⟩
    rw [htxid]
    exact h.inv.write hq
  | fail hq => exact ⟨h.inv.fail hq, h.events, h.queue⟩
  | @reply q t ht =>
    refine ⟨h.inv.perm ?_, h.send nofun, h.queue⟩
    have hsend := ((c.send_perm ⟨t, some q⟩).filterMap answered).append_left (c.requests.erase (q, t))
    refine ((perm_cons_erase ht).append_right _).trans (List.Perm.trans ?_ hsend.symm)
    exact perm_middle.symm
  | event =>
    refine ⟨h.inv.perm ?_, h.send fun _ => rfl, h.queue⟩
    exact (((c.send_perm ⟨0, none⟩).filterMap answered).append_left _).symm
  | startPoll hq hp => exact ⟨h.inv.startPoll hq hp, h.events, h.queue⟩
  | @recv buf rest _ hch =>
    have hperm : (c.channel ++ c.inHand).Perm (rest ++ buf :: c.inHand) := by
      rw [hch]
      exact perm_middle.symm
    exact ⟨h.inv.perm ((hperm.filterMap _).append_left _),
      fun m hm => h.events m (hperm.mem_iff.mpr hm), h.queue⟩
  | store hbuf => exact h.storeMessage hbuf
  | endPoll hq hp => exact ⟨h.inv.endPoll hq hp, h.events, h.queue⟩
  | drop hq hp => exact ⟨h.inv.drop hq hp, h.events, h.queue⟩
  | listen | error => exact ⟨h.inv, h.events, h.queue⟩
  | takeEvent hqueue => exact ⟨h.inv, h.events, fun m hm => h.queue m (hqueue ▸ mem_cons_of_mem _ hm)⟩

theorem good_new : Client.new.Good where
  inv := ⟨fun _ _ h => (by simp [Owns, new] at h), fun _ _ _ h =>
    (by simp [Owns, new] at h), nofun, nofun, .nil, nofun, nofun⟩
  events := nofun
  queue := nofun

theorem good_of_run (hr : Run (2 ^ 32 - 1) c) : c.Good := by
  induction hr with
  | new => exact good_new
  | step _ hs ih => exact ih.step hs

end Client

section Theorems
variable {c : Client}

/-- Replies and queries match. -/
structure Matched (c : Client) : Prop where
  own : ∀ q buf, c.stage q = .done buf → buf.request = some q
  once : ∀ q buf, c.stage q = .done buf → (∀ t, (q, t) ∉ c.owed) ∧
    ∀ id b, c.interests id = some (.received b) → b.request ≠ some q
  kept : ∀ q id, c.stage q = .live id → c.interests id ≠ none ∧
    ((q, txidOf id) ∈ c.owed ∨ c.interests id = some (.received ⟨txidOf id, some q⟩))
  queue : ∀ m ∈ c.queue, m.request = none
  discarded : ∀ id buf, c.interests id = some (.received buf) → ∃ q, c.stage q = .live id ∧
    buf.request = some q
  fresh : ∀ id, id < 2 ^ 32 - 1 → c.interests id = none → ∀ q, (q, txidOf id) ∉ c.owed

/-- A reply is returned by the future of its query only, and once; the reply to a live future is on
its way or stored for it; no reply to a dropped query is stored, nor any reply taken for an event;
and no id is vacant while a reply can come under it. -/
theorem replies_matched (hr : Run (2 ^ 32 - 1) c) : Matched c := by
  have hgood := Client.good_of_run hr
  have h := hgood.inv
  have hstored : ∀ {id buf}, c.interests id = some (.received buf) →
      ∃ q, c.stage q = .live id ∧ buf = ⟨id + 1, some q⟩ := by
    intro id buf hi
    obtain ⟨q, hq⟩ := h.owner id _ hi
    obtain ⟨i, hi', hf⟩ := h.slot q id hq
    cases hi.symm.trans hi'
    exact ⟨q, hf.1, hf.2.1⟩
  have howed : ∀ {q id}, (q, txidOf id) ∈ c.owed → id < 2 ^ 32 - 1 → c.interests id ≠ none := by
    intro q id ht hid hnone
    obtain ⟨k, hk, hstage⟩ := h.owed q _ ht
    rw [txidOf, Nat.mod_eq_of_lt (by omega)] at hk ht
    obtain rfl : id = k := Nat.succ.inj hk
    have hown : Owns c.stage c.owed q id := by
      rcases hstage with hs | hs
      · exact .inr (.inr (.inl hs))
      · exact (owns_dropped hs).mpr ht
    obtain ⟨i, hi, -⟩ := h.slot q id hown
    rw [hnone] at hi
    cases hi
  refine ⟨h.own, ?_, ?_, hgood.queue, ?_, fun id hid hnone q hq => howed hq hid hnone⟩
  · intro q buf hq
    refine ⟨h.not_owed fun k => by simp [hq], fun id b hi hb => ?_⟩
    obtain ⟨p, hp, rfl⟩ := hstored hi
    cases hb
    exact nomatch hq.symm.trans hp
  · intro q id hq
    have hid : txidOf id = id + 1 := Nat.mod_eq_of_lt (h.bound_of (.inr (.inr (.inl hq))) id rfl)
    rw [hid]
    rcases h.live hq with ⟨ht, hi | hi⟩ | ⟨hi, -⟩
    · exact ⟨by simp [hi], .inl ht⟩
    · exact ⟨by simp [hi], .inl ht⟩
    · exact ⟨by simp [hi], .inr hi⟩
  · intro id buf hi
    obtain ⟨q, hq, rfl⟩ := hstored hi
    exact ⟨q, hq, rfl⟩

/-- A query is sent and its reply returned. -/
theorem one_reply_run :
    ∃ c, Run (2 ^ 32 - 1) c ∧ c.stage = update (fun _ => .unsent) 0 (.done ⟨1, some 0⟩) ∧
    c.owed = [] := by
  have h := Run.step .new (@Step.register (2 ^ 32 - 1) _ 0 0 rfl rfl (by decide))
  have h := h.step (@Step.write _ _ 0 0 rfl)
  have h := h.step (@Step.startPoll _ _ 0 0 _ rfl rfl)
  have h := h.step (@Step.reply _ _ 0 1 mem_cons_self)
  have h := h.step (.recv (.inl ⟨0, rfl⟩) rfl)
  have h := h.step (.store mem_cons_self)
  have h := h.step (@Step.endPoll _ _ 0 0 _ _ rfl rfl)
  refine ⟨_, h, ?_, rfl⟩
  funext q
  cases q <;> rfl

theorem one_reply_matched :
    ∃ c, Run (2 ^ 32 - 1) c ∧ c.stage 0 = .done ⟨1, some 0⟩ ∧ Matched c := by
  obtain ⟨c, hr, hstage, -⟩ := one_reply_run
  exact ⟨c, hr, by rw [hstage]; rfl, replies_matched hr⟩

/-- As many queries as there are ids may wait at a time. -/
theorem many_queries_run {bound : Nat} (n : Nat) (hn : n ≤ bound) : ∃ c, Run bound c ∧
    (∀ k, n ≤ k → c.interests k = none ∧ c.stage k = .unsent) ∧ (∀ a ∈ c.requests, a.1 < n) ∧
    c.channel = [] ∧ c.inHand = [] ∧ c.queue = [] := by
  induction n with
  | zero => exact ⟨.new, .new, fun _ _ => ⟨rfl, rfl⟩, nofun, rfl, rfl, rfl⟩
  | succ n ih =>
    obtain ⟨c, hr, hfree, hreq, hch, hhand, hqueue⟩ := ih (by omega)
    have h := hr.step (@Step.register bound c n n (hfree n Nat.le.refl).2 (hfree n Nat.le.refl).1 hn)
    have h := h.step (@Step.write _ _ n n (Function.update_self ..))
    refine ⟨_, h, fun k hk => ?_, fun a ha => ?_, hch, hhand, hqueue⟩
    · have hkn : k ≠ n := by omega
      simp [Client.setStage, hkn, hfree k (by omega)]
    · rcases mem_cons.mp ha with rfl | ha
      · exact Nat.lt_succ_self n
      · exact Nat.lt_succ_of_lt (hreq a ha)

/-- A reply that has the id of an event. -/
theorem reply_as_event_run {bound : Nat} (n : Nat) (hn : n < bound) (hid : txidOf n = 0) :
    ∃ c, Run bound c ∧
    c.stage n = .live n ∧ (∀ t, (n, t) ∉ c.owed) ∧ c.interests n = some .willPoll ∧
      c.queue = [⟨0, some n⟩] := by
  obtain ⟨c, hr, hfree, hreq, hch, hhand, hqueue⟩ := many_queries_run n (Nat.le_of_lt hn)
  have h := hr.step (@Step.register bound c n n (hfree n Nat.le.refl).2 (hfree n Nat.le.refl).1 hn)
  have h := h.step (@Step.write _ _ n n (Function.update_self ..))
  have h := h.step (@Step.listen _ _ .some)
  have h := h.step (@Step.reply _ _ n (txidOf n) mem_cons_self)
  have h := h.step (@Step.recv _ _ ⟨txidOf n, some n⟩ [] (.inr rfl) (by simp [Client.setStage, hch]))
  have h := h.step (@Step.store _ _ ⟨txidOf n, some n⟩ mem_cons_self)
  refine ⟨_, h, ?_, fun t => ?_, ?_, ?_⟩
  · simp [Client.storeMessage, Client.setStage, hid]
  · have hnot : (n, t) ∉ c.requests := fun ht => Nat.lt_irrefl n (hreq _ ht)
    simp [Client.storeMessage, Client.setStage, Client.owed, hid, hnot, hhand]
  · simp [Client.storeMessage, Client.setStage, hid]
  · simp [Client.storeMessage, Client.setStage, hid, hqueue]

/-- The request of interest `2 ^ 32 - 1` has the id of an event, and its reply is queued as one. -/
theorem last_reply_lost : ∃ c, Run (2 ^ 32) c ∧ c.stage (2 ^ 32 - 1) = .live (2 ^ 32 - 1) ∧
    (∀ t, (2 ^ 32 - 1, t) ∉ c.owed) ∧ c.interests (2 ^ 32 - 1) = some .willPoll ∧ ¬ Matched c := by
  have hlast : 2 ^ 32 - 1 < 2 ^ 32 := by decide
  obtain ⟨c, hr, hlive, howed, hinterest, hqueue⟩ := reply_as_event_run (2 ^ 32 - 1) hlast rfl
  refine ⟨c, hr, hlive, howed, hinterest, fun h => ?_⟩
  have hnone := h.queue ⟨0, some (2 ^ 32 - 1)⟩ (hqueue ▸ mem_cons_self)
  cases hnone

/-- When every future has returned a reply or an error, was dropped, or was never made because its
request could not be sent, and every reply has been received, the interests that are left are those
of the requests that were not sent and of the futures that returned an error and were not
dropped. -/
theorem interests_empty_iff (hr : Run (2 ^ 32 - 1) c)
    (hended : ∀ q id, c.stage q ≠ .registered id ∧ (c.stage q = .live id → q ∈ c.erred))
    (hreceived : c.owed = []) :
    (∀ id, c.interests id = none) ↔ ∀ q id, c.stage q ≠ .failed id ∧
    (q ∈ c.erred → c.stage q ≠ .live id) := by
  have h := (Client.good_of_run hr).inv
  constructor
  · intro hempty q id
    have hno : ¬ Owns c.stage c.owed q id := by
      intro hown
      obtain ⟨i, hi, -⟩ := h.slot q id hown
      rw [hempty id] at hi
      cases hi
    exact ⟨fun hq => hno (.inr (.inl hq)), fun _ hq => hno (.inr (.inr (.inl hq)))⟩
  · intro hfail id
    by_contra hsome
    obtain ⟨i, hi⟩ := Option.ne_none_iff_exists'.mp hsome
    obtain ⟨q, hq | hq | hq | ⟨-, hq⟩⟩ := h.owner id i hi
    · exact (hended q id).1 hq
    · exact (hfail q id).1 hq
    · exact (hfail q id).2 ((hended q id).2 hq) hq
    · rw [hreceived] at hq
      cases hq

theorem one_reply_leaves_none : ∃ c, Run (2 ^ 32 - 1) c ∧ c.stage 0 = .done ⟨1, some 0⟩ ∧
    ∀ id, c.interests id = none := by
  obtain ⟨c, hr, hstage, howed⟩ := one_reply_run
  have hno : ∀ q id, c.stage q ≠ .registered id ∧ c.stage q ≠ .failed id ∧ c.stage q ≠ .live id := by
    intro q id
    rw [hstage]
    cases q <;> simp [update]
  refine ⟨c, hr, by rw [hstage]; rfl, ?_⟩
  exact (interests_empty_iff hr (fun q id => ⟨(hno q id).1, fun hq => absurd hq (hno q id).2.2⟩)
    howed).mpr
    fun q id => ⟨(hno q id).2.1, fun _ => (hno q id).2.2⟩

/-- A request that cannot be written leaves its interest behind. -/
theorem failed_query_leaks : ∃ c, Run (2 ^ 32 - 1) c ∧
    c.stage = update (fun _ => .unsent) 0 (.failed 0) ∧ c.owed = [] ∧
      c.interests 0 = some .willPoll := by
  have h := Run.step .new (@Step.register (2 ^ 32 - 1) _ 0 0 rfl rfl (by decide))
  have h := h.step (@Step.fail _ _ 0 0 rfl)
  refine ⟨_, h, ?_, rfl, rfl⟩
  funext q
  cases q <;> rfl

end Theorems

end Garnet.Fidl
