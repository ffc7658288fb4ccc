import EffectGraph.Flow.Run
import EffectGraph.Library.Builtins
import EffectGraph.Proofs.Records

/-!
# Kinds whose bodies ask for nothing

The body of a transparent kind (`Definition.Transparent`) computes its outputs from its arguments:
its only requests are messages to the log. The kinds of the library are transparent
(`Library.transparent`).
-/

namespace EffectGraph

/-- A program whose only requests are messages to the log. -/
inductive Program.Quiet {α : Type} : Program α → Prop
  | pure (a : α) : Quiet (.pure a)
  | log {n : NodeId} {message : String} {next : Unit → Program α} (h : Quiet (next ())) :
    Quiet (.ask (.log n message) next)

/-- A program that only writes messages to the log and ends with an outcome or with an error of its
own. -/
inductive Program.Candid : Program (Except BodyError Outcome) → Prop
  | ok (o : Outcome) : Candid (.pure (.ok o))
  | error (e : ActionError) : Candid (.pure (.error (.action e)))
  | log {n : NodeId} {message : String} {next : Unit → Program (Except BodyError Outcome)}
    (h : Candid (next ())) : Candid (.ask (.log n message) next)

theorem Program.Candid.quiet {x : Program (Except BodyError Outcome)} (h : x.Candid) : x.Quiet := by
  induction h with
  | ok o => exact .pure _
  | error e => exact .pure _
  | log _ ih => exact .log ih

/-- A method kind whose body is quiet and whose outputs are told apart by name, none of them a
control output. -/
structure Definition.Transparent (d : Definition) (m : Method) : Prop where
  behaviour : d.behaviour = .method m
  quiet : ∀ c, (m.body c).Quiet
  distinct : ∀ o, ((Engine.outputsOf m o).map (·.1)).Nodup
  values : ∀ o, ∀ e ∈ Engine.outputsOf m o, e.1 ≠ exitName ∧
    ∀ p ∈ d.signature.outputs, p.name = e.1 → p.isControl = false

/-! ## The outputs of a method -/

theorem filterMap_sublist {α β : Type} {f g : α → Option β} (h : ∀ a b, f a = some b → g a = some b)
    (l : List α) : (l.filterMap f).Sublist (l.filterMap g) := by
  induction l with
  | nil => exact .refl _
  | cons a l ih =>
    cases hf : f a with
    | some b =>
      rw [List.filterMap_cons_some hf, List.filterMap_cons_some (h a b hf)]
      exact ih.cons_cons b
    | none =>
      rw [List.filterMap_cons_none hf]
      cases hg : g a with
      | none => rwa [List.filterMap_cons_none hg]
      | some b =>
        rw [List.filterMap_cons_some hg]
        exact ih.cons b

theorem lookup_of_mem {α : Type} {es : List (String × α)} (hnodup : (es.map (·.1)).Nodup)
    {e : String × α} (he : e ∈ es) : es.lookup e.1 = some e.2 := by
  induction es with
  | nil => simp at he
  | cons x xs ih =>
    obtain ⟨hhead, htail⟩ := List.nodup_cons.1 (List.map_cons ▸ hnodup)
    obtain ⟨k, v⟩ := x
    rcases List.mem_cons.1 he with rfl | he
    · simp
    · have hne : (e.1 == k) = false :=
        beq_eq_false_iff_ne.2 fun h => hhead (h ▸ List.mem_map_of_mem (f := (·.1)) he)
      simp [List.lookup_cons, hne, ih htail he]

/-- The declarations of the outputs that a method writes. -/
def Method.written (m : Method) : List PortDecl := m.params.filterMap (·.out?) ++ m.returns.toList

theorem names_outputsOf (m : Method) (o : Outcome) :
    (Engine.outputsOf m o).map (·.1) = m.written.map (·.name) := by
  simp [Engine.outputsOf, Method.written, Function.comp_def]

theorem written_sublist (m : MethodDecl) (body : Body) :
    (Method.written ⟨m.params, m.returnDecl?, body⟩).Sublist m.signature.outputs := by
  refine (filterMap_sublist (fun p d hp => ?_) m.params).append (.refl _)
  cases p <;> simp_all [MethodParam.out?, MethodParam.output?]

/-- A method is transparent if its body is quiet and its out parameters are values. -/
theorem define_transparent {m : MethodDecl} {d : Definition} (h : m.define = .ok d)
    (hquiet : ∀ body, m.body = some body → ∀ c, (body c).Quiet)
    (hvalues : ∀ p ∈ m.params, ∀ q, p.out? = some q → q.isControl = false) :
    ∃ method, d.Transparent method := by
  have hnames := (define_addressable h).outputs
  obtain ⟨body, hbody, -, rfl⟩ := define_eq_ok.1 h
  obtain ⟨hexit, hnodup⟩ := List.nodup_cons.1 hnames
  have hwritten := written_sublist m body
  have hvalue : ∀ q ∈ Method.written ⟨m.params, m.returnDecl?, body⟩, q.isControl = false := by
    intro q hq
    rcases List.mem_append.1 hq with hq | hq
    · obtain ⟨p, hp, hpq⟩ := List.mem_filterMap.1 hq
      exact hvalues p hp q hpq
    · obtain ⟨t, -, rfl⟩ := Option.map_eq_some_iff.1 (Option.mem_toList.1 hq)
      rfl
  refine ⟨⟨m.params, m.returnDecl?, body⟩, rfl, hquiet body hbody, fun o => ?_, fun o e he => ?_⟩
  · rw [names_outputsOf]
    exact hnodup.sublist (hwritten.map _)
  · have hname : e.1 ∈ (Method.written ⟨m.params, m.returnDecl?, body⟩).map (·.name) :=
      names_outputsOf _ o ▸ List.mem_map_of_mem he
    refine ⟨fun hn => hexit (hn ▸ (hwritten.map _).subset hname), fun p hp hpe => ?_⟩
    obtain ⟨q, hq, hqe⟩ := List.mem_map.1 hname
    obtain rfl := List.inj_on_of_nodup_map hnodup hp (hwritten.subset hq) (hpe.trans hqe.symm)
    exact hvalue p hq

namespace Library

theorem candid_log (c : Call) : (match c.string "message" with
    | .error e => Program.pure (.error (.action e))
    | .ok message => .ask (.log c.node message) fun _ => .pure (.ok .empty) :
      Program (Except BodyError Outcome)).Candid := by
  split
  · exact .error _
  · exact .log (.ok _)

theorem candid_compute (f : Call → Except ActionError Outcome) (c : Call) :
    (Body.compute f c).Candid := by
  unfold Body.compute
  cases f c with
  | error e => exact .error e
  | ok o => exact .ok o

theorem candid_of_mem {m : MethodDecl} (hm : m ∈ declarations) {body : Body}
    (hbody : m.body = some body) (c : Call) : (body c).Candid := by
  simp only [declarations, List.mem_cons, List.not_mem_nil, or_false] at hm
  -- Only the last kind writes to the log; the others compute.
  rcases hm with rfl | rfl | rfl | rfl | rfl | rfl | rfl | rfl | rfl | rfl | rfl <;>
    obtain rfl := Option.some.inj hbody
  case inr.inr.inr.inr.inr.inr.inr.inr.inr.inr => exact candid_log c
  all_goals exact candid_compute _ c

theorem quiet_of_mem {m : MethodDecl} (hm : m ∈ declarations) {body : Body}
    (hbody : m.body = some body) (c : Call) : (body c).Quiet := (candid_of_mem hm hbody c).quiet

theorem out?_eq_none_of_mem : ∀ m ∈ declarations, ∀ p ∈ m.params, p.out? = none := by decide

/-- The standard kinds are transparent. -/
theorem transparent {m : MethodDecl} (hm : m ∈ declarations) {d : Definition}
    (h : m.define = .ok d) : ∃ method, d.Transparent method :=
  define_transparent h (fun _ hbody => quiet_of_mem hm hbody) fun p hp q hq => by
    simp [out?_eq_none_of_mem m hm p hp] at hq

end Library

end EffectGraph
