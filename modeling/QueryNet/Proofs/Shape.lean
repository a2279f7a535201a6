/-
  QueryNet.Proofs.Shape — values are read back from their JSON texts.

  A structure may be spelled in several ways: as a record of its fields in any order,
  with others among them, or as the list of its fields (`IsStructure`). Reading looks a
  field up by its name or takes it by its place, so it is the same for all of them
  (`fields?_of_isStructure`). Structures inside structures may be spelled in any of these
  ways too.

  Proved: every value is read back from its compact text, and a structure from all
  texts that hold a spelling of it (`readAs_exact`).
-/

import QueryNet.Proofs.Json.Texts
import QueryNet.Proofs.Spelling
import QueryNet.Proofs.Table
import QueryNet.Shape

namespace QueryNet

open Text (Points points)
open Json (Writable compact)

theorem Text.points_inj {s t : String} : points s = points t ↔ s = t := by
  refine ⟨fun h => Option.some.inj ?_, congrArg points⟩
  rw [← text?_points s, h, text?_points]

namespace Datum

/-! ## Spellings of a structure -/

/-- How a structure with such fields may be written: as a record of them in any order, among others that it does not
    have and that hold anything, or as the list of their values. -/
inductive IsStructure (fields : List (String × Datum)) : Datum → Prop
  | record {members others : List (String × Datum)} : members.Perm (fields ++ others) →
      (∀ o ∈ others, o.1 ∉ fields.map (·.1) ∧ ∃ s, Json.parse s = some o.2) → IsStructure fields (.object members)
  | list : IsStructure fields (.list (fields.map (·.2)))

variable {fields members : List (String × Datum)} {d : Datum}

theorem filter_eq_singleton (hd : (fields.map (·.1)).Nodup) {f : String × Datum} (hf : f ∈ fields) :
    fields.filter (fun e => e.1 = f.1) = [f] := by
  induction fields with
  | nil => cases hf
  | cons e fields ih =>
    obtain ⟨he, hd⟩ := List.nodup_cons.mp hd
    rcases List.mem_cons.mp hf with rfl | hf
    · rw [List.filter_cons_of_pos (by simp), List.filter_eq_nil_iff.mpr]
      intro g hg
      simpa using fun hname => he (List.mem_map.mpr ⟨g, hg, hname⟩)
    · have hne : e.1 ≠ f.1 := fun hname => he (List.mem_map.mpr ⟨f, hf, hname.symm⟩)
      rw [List.filter_cons_of_neg (by simpa using hne), ih hd hf]

theorem field?_object {name : String} {m : String × Datum} (h : members.filter (fun e => e.1 = name) = [m]) :
    field? (members.map fun m => (points m.1, m.2)) name = some (some m.2) := by
  have hfilter :
      (members.map fun m => (points m.1, m.2)).filter (fun e => e.1 = points name) = [(points m.1, m.2)] := by
    simp only [List.filter_map, Function.comp_def, Text.points_inj, h, List.map_singleton]
  rw [field?, hfilter]

/-- Each spelling gives the same fields. -/
theorem fields?_of_isStructure (hd : (fields.map (·.1)).Nodup) (h : IsStructure fields d) :
    d.fields? (fields.map (·.1)) = some (fields.map fun f => some f.2) := by
  cases h with
  | @record members others hperm hothers =>
    have hall : (members.map fun m => (points m.1, m.2)).all (fun m => (Text.text? m.1).isSome) = true := by
      simp [Text.text?_points]
    rw [object, fields?, if_pos hall, mapM_eq_some_iff, List.forall₂_map_left_iff, List.forall₂_map_right_iff,
      List.forall₂_same]
    intro f hf
    refine field?_object (List.perm_singleton.mp ((hperm.filter _).trans (.of_eq ?_)))
    rw [List.filter_append, filter_eq_singleton hd hf, List.filter_eq_nil_iff.mpr, List.append_nil]
    intro o ho
    simpa using fun hname : o.1 = f.1 => (hothers o ho).1 (List.mem_map.mpr ⟨f, hf, hname.symm⟩)
  | list => simp [fields?]

theorem writable_text (s : String) : Writable (.text s) := .string (Text.joined_points s)

theorem writable_object (h : ∀ m ∈ members, Writable m.2) : Writable (.object members) := by
  refine Json.writable_record fun m hm => ?_
  obtain ⟨n, hn, rfl⟩ := List.mem_map.mp hm
  exact ⟨Text.joined_points n.1, h n hn⟩

/-- What is written for fields can be written as a structure. -/
theorem IsStructure.writable (h : IsStructure fields d) (hfields : ∀ f ∈ fields, Writable f.2) : Writable d := by
  cases h with
  | record hperm hothers =>
    refine writable_object fun m hm => ?_
    rcases List.mem_append.mp (hperm.mem_iff.mp hm) with hm | hm
    · exact hfields m hm
    · exact Json.writable_iff.mpr (hothers m hm).2
  | list => exact .list (List.forall_mem_map.mpr hfields)

/-- Fields as they stand are one way to write them. -/
theorem isStructure_object (fields : List (String × Datum)) : IsStructure fields (.object fields) :=
  .record (.of_eq (List.append_nil fields).symm) (List.forall_mem_nil _)

theorem text?_text (s : String) : (text s).text? = some s := Text.text?_points s

theorem texts?_ofTexts (ss : List String) : (ofTexts ss).texts? = some ss := by
  simp only [ofTexts, texts?, list?, Option.bind_some, mapM_eq_some_iff, List.forall₂_map_left_iff, List.forall₂_same]
  exact fun s _ => text?_text s

theorem writable_ofTexts (ss : List String) : Writable (.ofTexts ss) :=
  .list (List.forall_mem_map.mpr fun s _ => writable_text s)

end Datum

/-! ## Bindings and names -/

theorem Bindings.ofDatum?_toDatum (b : Bindings) : ofDatum? b.toDatum = some b := by
  have hpairs : (b.entries.map fun e => (points e.1, Datum.text e.2)).mapM pair? = some b.entries := by
    rw [mapM_eq_some_iff, List.forall₂_map_left_iff, List.forall₂_same]
    intro e _
    simp [pair?, Text.text?_points, Datum.text?_text]
  have hentries : Table.ofList b.entries = b := Table.empty_merge b
  rw [ofDatum?, toDatum, Datum.object, Datum.record?, Option.bind_some, List.map_map]
  simp only [Function.comp_def, hpairs, Option.map_some, hentries]

theorem Bindings.writable_toDatum (b : Bindings) : Writable b.toDatum :=
  Datum.writable_object (List.forall_mem_map.mpr fun e _ => Datum.writable_text e.2)

theorem PacketKind.ofDatum?_toDatum (k : PacketKind) : ofDatum? k.toDatum = some k := by
  rw [ofDatum?, toDatum, Datum.text, Datum.name?, Text.text?_points]
  cases k <;> rfl

theorem Role.ofDatum?_toDatum (r : Role) : ofDatum? r.toDatum = some r := by
  rw [ofDatum?, toDatum, Datum.text, Datum.name?, Text.text?_points]
  cases r <;> rfl

/-! ## Structures -/

def Atom.WrittenAs (a : Atom) : Datum → Prop := Datum.IsStructure [("name", .text a.name), ("args", .ofTexts a.args)]

def Rule.WrittenAs (r : Rule) (d : Datum) : Prop :=
  ∃ head body, r.head.WrittenAs head ∧ List.Forall₂ Atom.WrittenAs r.body body ∧
    Datum.IsStructure [("head", head), ("body", .list body)] d

def Packet.WrittenAs (p : Packet) (d : Datum) : Prop :=
  ∃ query, p.query.WrittenAs query ∧
    Datum.IsStructure [("kind", p.kind.toDatum), ("query", query), ("result", resultToDatum p.result)] d

def Route.WrittenAs (r : Route) : Datum → Prop :=
  Datum.IsStructure [("nexthop", .text r.nexthop), ("metric", .nat r.metric)]

theorem Atom.writtenAs_toDatum (a : Atom) : a.WrittenAs a.toDatum := Datum.isStructure_object _

theorem Rule.writtenAs_toDatum (r : Rule) : r.WrittenAs r.toDatum := by
  refine ⟨_, _, r.head.writtenAs_toDatum, ?_, Datum.isStructure_object _⟩
  exact List.forall₂_map_right_iff.mpr (List.forall₂_same.mpr fun a _ => a.writtenAs_toDatum)

theorem Packet.writtenAs_toDatum (p : Packet) : p.WrittenAs p.toDatum :=
  ⟨_, p.query.writtenAs_toDatum, Datum.isStructure_object _⟩

theorem Route.writtenAs_toDatum (r : Route) : r.WrittenAs r.toDatum := Datum.isStructure_object _

variable {d : Datum}

theorem Atom.ofDatum?_of_writtenAs {a : Atom} (h : a.WrittenAs d) : ofDatum? d = some a := by
  have hfields : d.fields? ["name", "args"] = some [some (.text a.name), some (.ofTexts a.args)] :=
    Datum.fields?_of_isStructure (by simp) h
  simp [ofDatum?, hfields, Datum.text?_text, Datum.texts?_ofTexts]

theorem Rule.ofDatum?_of_writtenAs {r : Rule} (h : r.WrittenAs d) : ofDatum? d = some r := by
  obtain ⟨head, body, hhead, hbody, h⟩ := h
  have hfields : d.fields? ["head", "body"] = some [some head, some (.list body)] :=
    Datum.fields?_of_isStructure (by simp) h
  have hitems : body.mapM Atom.ofDatum? = some r.body :=
    mapM_eq_some_iff.mpr (hbody.flip.imp fun _ _ => Atom.ofDatum?_of_writtenAs)
  simp [ofDatum?, hfields, Atom.ofDatum?_of_writtenAs hhead, Datum.list?, hitems]

theorem Packet.resultOfDatum?_resultToDatum (result : Option Bindings) :
    resultOfDatum? (resultToDatum result) = some result := by
  cases result with
  | none => rfl
  | some b =>
    have hread : resultOfDatum? b.toDatum = (Bindings.ofDatum? b.toDatum).map some := rfl
    rw [resultToDatum, hread, Bindings.ofDatum?_toDatum, Option.map_some]

theorem Packet.ofDatum?_of_writtenAs {p : Packet} (h : p.WrittenAs d) : ofDatum? d = some p := by
  obtain ⟨query, hquery, h⟩ := h
  have hfields : d.fields? ["kind", "query", "result"] =
      some [some p.kind.toDatum, some query, some (resultToDatum p.result)] :=
    Datum.fields?_of_isStructure (by simp) h
  simp [ofDatum?, hfields, PacketKind.ofDatum?_toDatum, Atom.ofDatum?_of_writtenAs hquery,
    resultOfDatum?_resultToDatum]

theorem Route.ofDatum?_of_writtenAs {r : Route} (hmetric : r.metric ≤ maxMetric) (h : r.WrittenAs d) :
    ofDatum? d = some r := by
  have hfields : d.fields? ["nexthop", "metric"] = some [some (.text r.nexthop), some (.nat r.metric)] :=
    Datum.fields?_of_isStructure (by simp) h
  simp [ofDatum?, hfields, Datum.text?_text, Datum.nat, Datum.nat?, hmetric]

theorem Answer.ofDatum?_toDatum (a : Answer) : ofDatum? a.toDatum = some a := by
  cases a with
  | bound b =>
    have hfields : (toDatum (.bound b)).fields? ["status", "bindings"] =
        some [some (.text "bound"), some b.toDatum] :=
      Datum.fields?_of_isStructure (by simp)
        (Datum.isStructure_object [("status", .text "bound"), ("bindings", b.toDatum)])
    have hstatus : status? (toDatum (.bound b)) (.text "bound") = some "bound" := Text.text?_points "bound"
    simp [ofDatum?, hfields, hstatus, Bindings.ofDatum?_toDatum]
  | noMatch => rfl

/-! ## Values that can be written -/

theorem Atom.writable {a : Atom} (h : a.WrittenAs d) : Writable d :=
  Datum.IsStructure.writable h (by simp [Datum.writable_text, Datum.writable_ofTexts])

theorem Rule.writable {r : Rule} (h : r.WrittenAs d) : Writable d := by
  obtain ⟨head, body, hhead, hbody, h⟩ := h
  have hitems : Writable (.list body) := by
    refine .list fun item hitem => ?_
    obtain ⟨a, -, ha⟩ := exists_of_forall₂ hbody hitem
    exact Atom.writable ha
  exact h.writable (by simp [Atom.writable hhead, hitems])

theorem Packet.writable_resultToDatum (result : Option Bindings) : Writable (resultToDatum result) := by
  cases result with
  | none => exact .null
  | some b => exact b.writable_toDatum

theorem Packet.writable {p : Packet} (h : p.WrittenAs d) : Writable d := by
  obtain ⟨query, hquery, h⟩ := h
  exact h.writable (by simp [PacketKind.toDatum, Datum.writable_text, Atom.writable hquery, writable_resultToDatum])

theorem Route.writable {r : Route} (h : r.WrittenAs d) : Writable d :=
  Datum.IsStructure.writable h (by simp [Datum.writable_text, Datum.nat, Writable.int])

theorem Answer.writable (a : Answer) : Writable a.toDatum := by
  cases a with
  | bound b => exact Datum.writable_object (by simp [Datum.writable_text, b.writable_toDatum])
  | noMatch => exact Datum.writable_object (by simp [Datum.writable_text])

/-! ## Texts -/

namespace Json

def readAs {α : Type} (ofDatum? : Datum → Option α) (s : String) : Option α := (parse s).bind ofDatum?

/-- The compact text of a datum, or any other one that holds it. -/
def IsText (d : Datum) (s : String) : Prop := s = compact d ∨ parse s = some d

variable {α : Type} {ofDatum? : Datum → Option α} {x : α} {s : String}

theorem readAs_of_isText (hd : Writable d) (hread : ofDatum? d = some x) (hs : IsText d s) :
    readAs ofDatum? s = some x := by
  have hparse : parse s = some d := by
    rcases hs with rfl | hs
    · exact parse_compact hd
    · exact hs
  rw [readAs, hparse, Option.bind_some, hread]

theorem isText_compact (d : Datum) : IsText d (compact d) := .inl rfl

theorem readAs_atom {a : Atom} (h : a.WrittenAs d) (hs : IsText d s) : readAs Atom.ofDatum? s = some a :=
  readAs_of_isText (Atom.writable h) (Atom.ofDatum?_of_writtenAs h) hs

theorem readAs_rule {r : Rule} (h : r.WrittenAs d) (hs : IsText d s) : readAs Rule.ofDatum? s = some r :=
  readAs_of_isText (Rule.writable h) (Rule.ofDatum?_of_writtenAs h) hs

theorem readAs_packet {p : Packet} (h : p.WrittenAs d) (hs : IsText d s) : readAs Packet.ofDatum? s = some p :=
  readAs_of_isText (Packet.writable h) (Packet.ofDatum?_of_writtenAs h) hs

theorem readAs_route {r : Route} (hmetric : r.metric ≤ maxMetric) (h : r.WrittenAs d) (hs : IsText d s) :
    readAs Route.ofDatum? s = some r :=
  readAs_of_isText (Route.writable h) (Route.ofDatum?_of_writtenAs hmetric h) hs

/-- Every value is read back from the compact text of its data. Structures are also read from every text of a datum
    that they can be written as: with their fields in any order, with other fields among them, or as lists. -/
theorem readAs_exact :
    (∀ k : PacketKind, readAs PacketKind.ofDatum? (compact k.toDatum) = some k) ∧
    (∀ r : Role, readAs Role.ofDatum? (compact r.toDatum) = some r) ∧
    (∀ a : Answer, readAs Answer.ofDatum? (compact a.toDatum) = some a) ∧
    (∀ a : Atom, readAs Atom.ofDatum? (compact a.toDatum) = some a ∧
      ∀ d s, a.WrittenAs d → IsText d s → readAs Atom.ofDatum? s = some a) ∧
    (∀ r : Rule, readAs Rule.ofDatum? (compact r.toDatum) = some r ∧
      ∀ d s, r.WrittenAs d → IsText d s → readAs Rule.ofDatum? s = some r) ∧
    (∀ p : Packet, readAs Packet.ofDatum? (compact p.toDatum) = some p ∧
      ∀ d s, p.WrittenAs d → IsText d s → readAs Packet.ofDatum? s = some p) ∧
    ∀ r : Route, r.metric ≤ maxMetric → readAs Route.ofDatum? (compact r.toDatum) = some r ∧
      ∀ d s, r.WrittenAs d → IsText d s → readAs Route.ofDatum? s = some r := by
  refine ⟨fun k => ?_, fun r => ?_, fun a => ?_, fun a => ?_, fun r => ?_, fun p => ?_, fun r hmetric => ?_⟩
  · exact readAs_of_isText (Datum.writable_text k.label) k.ofDatum?_toDatum (isText_compact _)
  · exact readAs_of_isText (Datum.writable_text r.label) r.ofDatum?_toDatum (isText_compact _)
  · exact readAs_of_isText a.writable a.ofDatum?_toDatum (isText_compact _)
  · exact ⟨readAs_atom a.writtenAs_toDatum (isText_compact _), fun _ _ => readAs_atom⟩
  · exact ⟨readAs_rule r.writtenAs_toDatum (isText_compact _), fun _ _ => readAs_rule⟩
  · exact ⟨readAs_packet p.writtenAs_toDatum (isText_compact _), fun _ _ => readAs_packet⟩
  · exact ⟨readAs_route hmetric r.writtenAs_toDatum (isText_compact _), fun _ _ => readAs_route hmetric⟩

def reply : Packet := ⟨.response, ⟨"says", ["?X", "\x22\x5c\n\x01é😀"]⟩, some (.ofList [("?X", "")])⟩

/-- The reply with its fields from the last to the first, its query as a list, and two fields that no packet has. -/
def disordered : Datum :=
  .object [("kind", .text "response"), ("query", .list [.text "says", .ofTexts ["?X", "\x22\x5c\n\x01é😀"]]),
    ("result", .object [("?X", .text "")]), ("hops", .list [.null, .record []]), ("ttl", .real "0.5e1")].reverse

def listed : Datum := .list [.list [.text "p", .ofTexts []], .list [(Atom.mk "q" ["?X"]).toDatum]]

/-- The reply and the rule are read from these; an atom and the longest route are read from lists. -/
theorem readAs_disordered :
    readAs Packet.ofDatum? (compact disordered) = some reply ∧
      readAs Rule.ofDatum? (compact listed) = some ⟨⟨"p", []⟩, [⟨"q", ["?X"]⟩]⟩ ∧
      readAs Atom.ofDatum? "[\x22a\x22,[]]" = some ⟨"a", []⟩ ∧
      readAs Route.ofDatum? "[\x22s2\x22,4294967295]" = some ⟨"s2", 4294967295⟩ := by
  obtain ⟨-, -, -, hatom, hrule, hpacket, hroute⟩ := readAs_exact
  have hunknown : ∀ o ∈ [("hops", Datum.list [.null, .record []]), ("ttl", .real "0.5e1")],
      o.1 ∉ ["kind", "query", "result"] ∧ ∃ s, parse s = some o.2 := by
    have hhops : Writable (.list [.null, .record []]) :=
      .list (List.forall_mem_cons.mpr ⟨.null, List.forall_mem_singleton.mpr (.record (by simp) (by simp))⟩)
    have hnumeric : "0.5e1".toList.all isNumeric = true := by decide
    have httl : Writable (.real "0.5e1") := .real (List.all_eq_true.mp hnumeric) rfl
    refine List.forall_mem_cons.mpr ⟨⟨by decide, writable_iff.mp hhops⟩, List.forall_mem_singleton.mpr ?_⟩
    exact ⟨by decide, writable_iff.mp httl⟩
  have hreply : reply.WrittenAs disordered := ⟨_, .list, .record (List.reverse_perm _) hunknown⟩
  have hlisted : (Rule.mk ⟨"p", []⟩ [⟨"q", ["?X"]⟩]).WrittenAs listed :=
    ⟨_, _, .list, .cons (Atom.writtenAs_toDatum _) .nil, .list⟩
  have hshort : "[\x22a\x22,[]]" = compact (.list [.text "a", .ofTexts []]) := by decide +kernel
  have hlong : "[\x22s2\x22,4294967295]" = compact (.list [.text "s2", .nat 4294967295]) := by decide +kernel
  refine ⟨?_, ?_, ?_, ?_⟩
  · exact (hpacket reply).2 _ _ hreply (isText_compact _)
  · exact (hrule _).2 _ _ hlisted (isText_compact _)
  · exact (hatom ⟨"a", []⟩).2 _ _ .list (.inl hshort)
  · exact (hroute ⟨"s2", 4294967295⟩ (by decide)).2 _ _ .list (.inl hlong)

/-- Nothing bound is not the same as no match. -/
example :
    compact (Answer.bound ∅).toDatum = "\x7b\x22status\x22:\x22bound\x22,\x22bindings\x22:\x7b\x7d\x7d" ∧
      compact Answer.noMatch.toDatum = "\x7b\x22status\x22:\x22no_match\x22\x7d" := by
  decide +kernel

end Json

end QueryNet
