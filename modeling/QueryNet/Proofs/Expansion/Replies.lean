/-
  QueryNet.Proofs.Expansion.Replies — a query that is decomposed is answered once.

  Proved: a request whose expansion no pending query interferes with leads to one
  request for each leaf, and the answers to the leaves, in any order, lead to one
  answer: to the node that asked, at the last leaf, with the expansion's value
  (`answered_once`). Each answer before takes the entries of the expansion to those
  that are left (`handles_response`), and the last one leaves nothing behind.
-/

import QueryNet.Proofs.Expansion.Solving

namespace QueryNet.Expansion

variable {s : Solver} {x : Expansion} {requester : NodeId} {as : Answers}

/-- A solver with the entries of an expansion that `requester` asked for, after some answers. -/
def pendingAfter (s : Solver) (requester : NodeId) (as : Answers) (x : Expansion) : Solver :=
  s.withPending (s.pending.insertAll (x.entries as none (some requester)))

def replies (requester : NodeId) (as : Answers) (x : Expansion) : List Outbound :=
  if x.Answered as then [⟨requester, .response x.root (x.value as)⟩] else []

theorem standing_requested (s : Solver) (requester : NodeId) (as : Answers) (x : Expansion) :
    x.standing as none (some requester) s.pending =
      ⟨.consumed, (pendingAfter s requester as x).pending, (replies requester as x).head?⟩ := by
  unfold standing pendingAfter replies
  by_cases h : x.Answered as
  · rw [if_pos h, if_pos h, entries_of_answered h]
    rfl
  · rw [if_neg h, if_neg h]
    rfl

theorem toList_head?_replies (requester : NodeId) (as : Answers) (x : Expansion) :
    (replies requester as x).head?.toList = replies requester as x := by
  unfold replies
  split <;> rfl

/-! ## The request -/

/-- The request is answered at once or sent on to the leaves. -/
theorem handles_request (h : Expands s x) (hd : x.atoms.Nodup) (hp : ∀ a ∈ x.atoms, s.pending.get? a = none)
    {hop : Atom → NodeId} (hr : x.Routed s hop) (ho : ∀ q, x = leaf q → requester ≠ hop q) :
    ∃ t, s.Handles requester (.request x.root) t ∧ t.out = x.requests hop ++ replies requester [] x ∧
      t.solver = pendingAfter s requester [] x := by
  have hclear : s.pending.Clear (fun _ => False) x.atoms := ⟨fun _ h => h.elim, hp, fun _ _ h => h⟩
  have hsolves : Solves s hop x.height none (some requester) x :=
    solve_expands h hr hd (Nat.le_refl _) fun q hq he => ho q hq (Option.some.inj he)
  have hsolve := hsolves s.pending _ hclear (fun _ h => by cases h) [] [.packetReceived s.id .request]
  rw [standing_requested, delivered, toList_head?_replies] at hsolve
  refine ⟨_, ⟨x.height, congrArg (Option.map _) hsolve⟩, ?_, ?_⟩
  · rfl
  · rfl

/-! ## The answers -/

/-- An answer to a leaf takes the expansion's entries to those that are left. -/
theorem handles_response {a : Atom × Bindings} (hd : x.atoms.Nodup) (hp : ∀ b ∈ x.atoms, s.pending.get? b = none)
    (ha : a.1 ∈ x.leaves) (hn : a.1 ∉ as.map (·.1)) (sender : NodeId) :
    ∃ t, (pendingAfter s requester as x).Handles sender (.response a.1 a.2) t ∧
      t.out = replies requester (as ++ [a]) x ∧ t.solver = pendingAfter s requester (as ++ [a]) x := by
  have hdeliver : PendingTable.deliver (pendingAfter s requester as x).pending a.1 a.2 a.1 =
      ⟨.consumed, (pendingAfter s requester (as ++ [a]) x).pending, (replies requester (as ++ [a]) x).head?⟩ := by
    rw [← standing_requested]
    exact deliver_entries hd ha hn hp
  refine ⟨_, ⟨0, rfl⟩, ?_, ?_⟩ <;>
    simp only [Turn.note, Turn.respond, Packet.response, Turn.begin, Turn.deliver, hdeliver, Turn.setPending,
      toList_head?_replies, List.nil_append]
  rfl

/-- All answers but the last are taken in silently; the last one makes the reply. -/
theorem handlesAll_responses (hd : x.atoms.Nodup) (hp : ∀ b ∈ x.atoms, s.pending.get? b = none)
    {packets : List (NodeId × (Atom × Bindings))} (hne : packets ≠ [])
    (hperm : (as.map (·.1) ++ packets.map (·.2.1)).Perm x.leaves) :
    ∃ outs, (pendingAfter s requester as x).HandlesAll (packets.map fun p => (p.1, .response p.2.1 p.2.2)) outs s ∧
      outs = List.replicate (packets.length - 1) [] ++
        [[⟨requester, .response x.root (x.value (as ++ packets.map (·.2)))⟩]] := by
  induction packets generalizing as with
  | nil => exact absurd rfl hne
  | cons p packets ih =>
    obtain ⟨sender, a⟩ := p
    have hnodup := hperm.nodup_iff.mpr (x.leaves_sublist_atoms.nodup hd)
    have hn : a.1 ∉ as.map (·.1) := fun h =>
      (List.nodup_append.mp hnodup).2.2 _ h _ (List.mem_map.mpr ⟨_, List.mem_cons_self .., rfl⟩) rfl
    have ha : a.1 ∈ x.leaves := hperm.subset (List.mem_append_right _ (List.mem_cons_self ..))
    have hperm' : ((as ++ [a]).map (·.1) ++ packets.map (·.2.1)).Perm x.leaves := by
      simpa only [List.map_append, List.map_cons, List.map_nil, List.append_assoc, List.singleton_append] using hperm
    obtain ⟨t, ht, hout, hsolver⟩ := handles_response hd hp ha hn sender
    by_cases hlast : packets = []
    · subst hlast
      have hanswered : x.Answered (as ++ [a]) := answered_iff.mpr fun l hl => by
        simpa using hperm'.mem_iff.mpr hl
      have hdone : pendingAfter s requester (as ++ [a]) x = s := by
        rw [pendingAfter, entries_of_answered hanswered]
        rfl
      rw [replies, if_pos hanswered] at hout
      refine ⟨[t.out], .cons ht ?_, ?_⟩
      · rw [hsolver, hdone]
        exact .nil s
      · rw [hout]
        rfl
    · have hopen : ¬ x.Answered (as ++ [a]) := fun h => by
        obtain ⟨p, hp⟩ := List.exists_mem_of_ne_nil _ hlast
        have hmem : p.2.1 ∈ packets.map (·.2.1) := List.mem_map.mpr ⟨p, hp, rfl⟩
        have hleaf := hperm'.subset (List.mem_append_right _ hmem)
        exact (List.nodup_append.mp (hperm'.nodup_iff.mpr (x.leaves_sublist_atoms.nodup hd))).2.2 _
          (answered_iff.mp h _ hleaf) _ hmem rfl
      obtain ⟨outs, houts, he⟩ := ih hlast hperm'
      rw [replies, if_neg hopen] at hout
      refine ⟨t.out :: outs, .cons ht (hsolver ▸ houts), ?_⟩
      obtain ⟨n, hlen⟩ := Nat.exists_eq_succ_of_ne_zero (mt List.length_eq_zero_iff.mp hlast)
      rw [hout, he]
      simp [hlen, List.replicate_succ]

/-! ## The query -/

/-- A query that is decomposed is answered exactly once, with the value of its expansion, however the
    answers to the leaves come in. -/
theorem answered_once (h : Expands s x) (hd : x.atoms.Nodup) (hp : ∀ a ∈ x.atoms, s.pending.get? a = none)
    {hop : Atom → NodeId} (hr : x.Routed s hop) (ho : ∀ q, x = leaf q → requester ≠ hop q) :
    ∃ t, s.Handles requester (.request x.root) t ∧
      (x.leaves = [] → t.out = [⟨requester, .response x.root (x.value [])⟩] ∧ t.solver = s) ∧
      (x.leaves ≠ [] → t.out = x.leaves.map (fun l => ⟨hop l, .request l⟩) ∧
        ∀ packets : List (NodeId × (Atom × Bindings)), (packets.map (·.2.1)).Perm x.leaves →
          ∃ outs, t.solver.HandlesAll (packets.map fun p => (p.1, .response p.2.1 p.2.2)) outs s ∧
            outs = List.replicate (packets.length - 1) [] ++
              [[⟨requester, .response x.root (x.value (packets.map (·.2)))⟩]]) := by
  obtain ⟨t, ht, hout, hsolver⟩ := handles_request h hd hp hr ho
  refine ⟨t, ht, fun hnil => ?_, fun hne => ?_⟩
  · have hanswered : x.Answered [] := answered_iff.mpr fun l hl => absurd (hnil ▸ hl) List.not_mem_nil
    rw [hout, hsolver, replies, if_pos hanswered, requests, hnil, pendingAfter, entries_of_answered hanswered]
    exact ⟨rfl, rfl⟩
  · have hopen : ¬ x.Answered [] := fun h => by
      obtain ⟨l, hl⟩ := List.exists_mem_of_ne_nil _ hne
      exact absurd (answered_iff.mp h l hl) List.not_mem_nil
    rw [replies, if_neg hopen, List.append_nil] at hout
    refine ⟨hout, fun packets hperm => ?_⟩
    have hpackets : packets ≠ [] := fun he => hne (List.map_eq_nil_iff.mpr he ▸ hperm).symm.eq_nil
    rw [hsolver]
    exact handlesAll_responses hd hp hpackets hperm

def station : Solver :=
  { Solver.create "station" .standard with
    rules :=
      [⟨⟨"report", ["?X"]⟩, [⟨"sensor", ["?A"]⟩, ⟨"summary", ["?B"]⟩, ⟨"@", ["?X", "?A", "?B"]⟩]⟩,
        ⟨⟨"summary", ["?X"]⟩, [⟨"unit", ["?U"]⟩, ⟨"reading", ["?V"]⟩, ⟨"@", ["?X", "?U", "?V"]⟩]⟩,
        ⟨⟨"unit", ["?X"]⟩, [⟨"@", ["?X"]⟩]⟩]
    routes := .ofList [("sensor/1", ⟨"north", 0⟩), ("reading/1", ⟨"south", 2⟩)]
    interfaces := .ofList [("north", ⟨.leaf, 0⟩), ("south", ⟨.solverPeer, 1⟩)] }

def reportExpansion : Expansion :=
  .node ⟨"report", ["?r"]⟩ ⟨⟨"report", ["?X"]⟩, [⟨"sensor", ["?A"]⟩, ⟨"summary", ["?B"]⟩, ⟨"@", ["?X", "?A", "?B"]⟩]⟩
    (.ofList [("?X", "?r")])
    [.leaf ⟨"sensor", ["?A"]⟩,
      .node ⟨"summary", ["?B"]⟩ ⟨⟨"summary", ["?X"]⟩, [⟨"unit", ["?U"]⟩, ⟨"reading", ["?V"]⟩, ⟨"@", ["?X", "?U", "?V"]⟩]⟩
        (.ofList [("?X", "?B")])
        [.node ⟨"unit", ["?U"]⟩ ⟨⟨"unit", ["?X"]⟩, [⟨"@", ["?X"]⟩]⟩ (.ofList [("?X", "?U")]) [],
          .leaf ⟨"reading", ["?V"]⟩]]

theorem reportExpansion_expands : reportExpansion.Expands station := by
  refine .node (by decide +kernel) (by decide) fun x hx => ?_
  rcases List.mem_pair.mp hx with rfl | rfl
  · exact .leaf (by decide +kernel)
  · refine .node (by decide +kernel) (by decide) fun x hx => ?_
    rcases List.mem_pair.mp hx with rfl | rfl
    · exact .node (by decide +kernel) (by decide) fun x hx => absurd hx List.not_mem_nil
    · exact .leaf (by decide +kernel)

def nextStop (a : Atom) : NodeId := if a.name = "sensor" then "north" else "south"

theorem reportExpansion_routed : reportExpansion.Routed station nextStop := by
  intro l hl
  have hl : l ∈ [⟨"sensor", ["?A"]⟩, ⟨"reading", ["?V"]⟩] := hl
  rcases List.mem_pair.mp hl with rfl | rfl
  · exact ⟨0, by decide +kernel, by decide +kernel⟩
  · exact ⟨2, by decide +kernel, by decide +kernel⟩

/-- The reading comes in before the sensor's answer, and the report goes out with both. -/
theorem report_answered :
    ∃ t, station.Handles "user" (.request ⟨"report", ["?r"]⟩) t ∧
      t.out = [⟨"north", .request ⟨"sensor", ["?A"]⟩⟩, ⟨"south", .request ⟨"reading", ["?V"]⟩⟩] ∧
      ∃ outs, t.solver.HandlesAll [("south", .response ⟨"reading", ["?V"]⟩ (.ofList [("?V", "21")])),
          ("north", .response ⟨"sensor", ["?A"]⟩ (.ofList [("?A", "s1")]))] outs station ∧
        outs = [[], [⟨"user", .response ⟨"report", ["?r"]⟩ (.ofList [("?r", "\x7bs1 | \x7b\x7b\x7d | 21\x7d\x7d")])⟩]] := by
  obtain ⟨t, ht, -, hopen⟩ := answered_once reportExpansion_expands (by decide +kernel) (fun _ _ => rfl)
    reportExpansion_routed (fun q h => by cases h)
  obtain ⟨hout, hall⟩ := hopen (by decide)
  obtain ⟨outs, houts, he⟩ := hall
    [("south", ⟨"reading", ["?V"]⟩, .ofList [("?V", "21")]), ("north", ⟨"sensor", ["?A"]⟩, .ofList [("?A", "s1")])]
    (by decide +kernel)
  exact ⟨t, ht, hout, outs, houts, he.trans (by decide +kernel)⟩

end QueryNet.Expansion
