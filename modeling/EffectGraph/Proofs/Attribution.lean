import EffectGraph.Proofs.Bookkeeping
import EffectGraph.Proofs.Pulls

/-!
# Errors of bodies are attributed and logged once

If bodies pass no errors of the interpreter through (`Definition.Candid`), as those of the library
do not, an error that is attributed to a node was raised by the body of that node in one of the
flows of the run (`Setting.Raises`), and the log notes it once, as its last entry; other runs note
no such failure (`attributed_exec`). Whether failures are logged makes no difference but to the log
(`mutes_exec`). The results are put together in `failures_attributed`.
-/

namespace EffectGraph

open EffectGraph.Graph

variable {σ α β : Type}

/-! ## Kinds -/

/-- The definitions that can be had with bodies that only write to the log and pass no errors
through, inside generated kinds as well. -/
inductive Definition.Candid : Definition → Prop
  | method {m : MethodDecl} {d : Definition} (h : m.define = .ok d)
    (hbody : ∀ body, m.body = some body → ∀ c, (body c).Candid) : Candid d
  | generated {s : Signature} {g : Graph Definition} {d : Definition}
    (h : Definition.generated s g = .ok d) (hg : Reachable Candid g) : Candid d
  | obsoleteNames {d : Definition} (names : List String) (h : Candid d) :
    Candid (d.withObsoleteNames names)
  | obsoleteMessage {d : Definition} (message : Option String) (h : Candid d) :
    Candid (d.withObsoleteMessage message)

/-- What is known of a candid definition. -/
structure Definition.Open (d : Definition) : Prop where
  method : ∀ b, d.behaviour = .method b → ∀ c, (b.body c).Candid
  generated : ∀ inner, d.behaviour = .generated inner → Reachable Definition.Candid inner

/-- The standard kinds are candid. -/
theorem Definition.Standard.candid {d : Definition} : d.Standard → d.Candid
  | ⟨_, hm, hd⟩ => .method hd fun _ hbody c => Library.candid_of_mem hm hbody c

theorem Definition.Candid.isOpen : ∀ {d : Definition}, d.Candid → d.Open
  | d, .method h hbody => by
    obtain ⟨body, hsome, -, rfl⟩ := define_eq_ok.1 h
    refine ⟨fun b hb => ?_, fun inner hinner => by simp at hinner⟩
    obtain rfl := Behaviour.method.inj hb
    exact hbody body hsome
  | _, .generated (s := s) (g := g) h hg => by
    obtain ⟨inner, hinner, rfl, -⟩ := generated_eq_ok h
    refine ⟨fun m hm => by simp at hm, fun inner' hinner' => ?_⟩
    obtain rfl := Behaviour.generated.inj hinner'
    exact hg.setSignature hinner
  | _, .obsoleteNames _ h =>
    let ⟨hmethod, hgenerated⟩ := Candid.isOpen h
    ⟨hmethod, hgenerated⟩
  | _, .obsoleteMessage _ h =>
    let ⟨hmethod, hgenerated⟩ := Candid.isOpen h
    ⟨hmethod, hgenerated⟩

/-- The definitions of the nodes of a reachable graph are open. -/
theorem Reachable.isOpen {g : Graph Definition} (hg : Reachable Definition.Candid g)
    {node : Node Definition} (hnode : node ∈ g.nodes) {d : Definition}
    (hkind : node.kind = .action d) : d.Open := ((hg.invariant.2 node hnode).1 d hkind).isOpen

/-- The graphs of nested flows are reachable as well. -/
theorem Setting.Nests.reachable {s u : Setting} {k : Nat} (h : s.Nests k u)
    (hg : Reachable Definition.Candid s.graph) : Reachable Definition.Candid u.graph := by
  induction h with
  | self => exact hg
  | child hnode hkind hinner _ ih => exact (ih.isOpen hnode hkind).generated _ hinner

/-! ## Logs -/

/-- Entries are added to a log, none of which notes a failure. -/
def Unfailing (log log' : List Event) : Prop :=
  ∃ new, log' = new ++ log ∧ ∀ e ∈ new, e.isFailure = false

namespace Unfailing

variable {log log' log'' : List Event}

theorem refl (log : List Event) : Unfailing log log := ⟨[], rfl, by simp⟩

theorem cons {e : Event} (he : e.isFailure = false) : Unfailing log (e :: log) :=
  ⟨[e], rfl, by simpa using he⟩

theorem trans (h : Unfailing log log') (h' : Unfailing log' log'') : Unfailing log log'' := by
  obtain ⟨new, rfl, hnew⟩ := h
  obtain ⟨new', rfl, hnew'⟩ := h'
  exact ⟨new' ++ new, (List.append_assoc ..).symm, List.forall_mem_append.2 ⟨hnew', hnew⟩⟩

end Unfailing

/-- In a flow the body of a node raises an error of its own, after it has been invoked when there
was one log and when there is another; neither before nor in between a failure is noted. -/
inductive Setting.Raises (u : Setting) (host : Host σ) (n : NodeId) (define : String)
    (e : ActionError) (log log' : List Event) : Prop
  | intro {k : Nat} {m₁ m₂ m₃ : Machine σ} {x : Program (Except BodyError Outcome)}
    (hstart : u.Starts host k n define m₁ x m₂)
    (hbody : (exec host k).runProgram u host x m₂ = some (.ok (.error (.action e)), m₃))
    (hbefore : Unfailing log m₁.log) (hduring : Unfailing m₁.log m₃.log) (hlog : log' = m₃.log)

theorem Setting.Raises.after {u : Setting} {host : Host σ} {n : NodeId} {define : String}
    {e : ActionError} {log log' log'' : List Event} (h : u.Raises host n define e log' log'')
    (hbefore : Unfailing log log') : u.Raises host n define e log log'' := by
  obtain ⟨hstart, hbody, hbefore', hduring, hlog⟩ := h
  exact ⟨hstart, hbody, hbefore.trans hbefore', hduring, hlog⟩

theorem Setting.Raises.unfailing {u : Setting} {host : Host σ} {n : NodeId} {define : String}
    {e : ActionError} {log log' : List Event} (h : u.Raises host n define e log log') :
    Unfailing log log' := by
  obtain ⟨-, -, hbefore, hduring, rfl⟩ := h
  exact hbefore.trans hduring

/-- What the log of a run accounts for: an error of a body was raised in one of the flows of the run
and then noted, if it is to be, and other than that no failure is noted. -/
def Setting.Accounts (s : Setting) (host : Host σ) (log log' : List Event) :
    Option FlowError → Prop
  | some (.action n define e) => ∃ j u log₁, s.Nests j u ∧ u.Raises host n define e log log₁ ∧
      log' =
        if s.options.logNodeErrors then .nodeFailed n define u.depth u.callers e :: log₁ else log₁
  | _ => Unfailing log log'

/-- The contract that the log accounts for how a step ends. -/
def Setting.attribution (s : Setting) (host : Host σ) : Contract σ :=
  fun o m m' => s.Accounts host m.log m'.log o

theorem Setting.attribution_lawful (s : Setting) (host : Host σ) : (s.attribution host).Lawful where
  refl m := .refl m.log
  trans := by
    intro o m m₁ m₂ h h'
    have h : Unfailing m.log m₁.log := h
    match o with
    | some (.action n define e) =>
      obtain ⟨j, u, log, hu, hraises, hlog⟩ := h'
      exact ⟨j, u, log, hu, hraises.after h, hlog⟩
    | none | some (.wrongRole ..) | some (.emptyOutput ..) | some (.cycle _) | some (.tooDeep ..)
    | some (.graph _) => exact h.trans h'
  fail := by
    intro e m he
    cases e with
    | action n define e => simp [FlowError.isAction] at he
    | _ => exact .refl m.log
  memoize := .refl _
  emit he := .cons he
  running h := h

/-- A step in another flow accounts for as much. -/
theorem Setting.attribution_within {s : Setting} {host : Host σ} {x : Exec σ α}
    (hx : Honours (s.attribution host) x) (memory : Memory) :
    Honours (s.attribution host) (.within memory x) := by
  intro m r m' h
  unfold Exec.within at h
  split at h
  · simp at h
  next e m₁ h₁ =>
    obtain ⟨rfl, rfl⟩ := Prod.mk.inj (Option.some.inj h)
    exact hx _ _ _ h₁
  next a m₁ h₁ =>
    obtain ⟨rfl, rfl⟩ := Prod.mk.inj (Option.some.inj h)
    exact hx _ _ _ h₁

/-! ## Runs -/

/-- A candid body ends well or raises an error of its own, and notes no failure. -/
theorem Engine.candid_runProgram {engine : Engine σ} {u : Setting} {host : Host σ}
    {x : Program (Except BodyError Outcome)} (hx : x.Candid) {m m' : Machine σ}
    {r : Except FlowError (Except BodyError Outcome)}
    (h : engine.runProgram u host x m = some (r, m')) : Unfailing m.log m'.log ∧
      ((∃ o, r = .ok (.ok o)) ∨ ∃ e, r = .ok (.error (.action e))) := by
  induction hx generalizing m with
  | ok o =>
    obtain ⟨rfl, rfl⟩ := Prod.mk.inj (Option.some.inj h)
    exact ⟨.refl _, .inl ⟨o, rfl⟩⟩
  | error e =>
    obtain ⟨rfl, rfl⟩ := Prod.mk.inj (Option.some.inj h)
    exact ⟨.refl _, .inr ⟨e, rfl⟩⟩
  | log _ ih =>
    obtain ⟨hlog, hr⟩ := ih h
    exact ⟨Unfailing.trans (.cons rfl) hlog, hr⟩

/-- An error of a body is attributed to its node and noted if it is to be. -/
theorem Engine.blame_action {s : Setting} {n : NodeId} {define : String} {e : ActionError}
    {m m' : Machine σ} {r : Except FlowError α}
    (h : blame s n define (.action e) m = some (r, m')) : r = .error (.action n define e) ∧
      m'.log = if s.options.logNodeErrors then .nodeFailed n define s.depth s.callers e :: m.log
        else m.log := by
  simp only [blame] at h
  split at h <;> obtain ⟨rfl, rfl⟩ := Prod.mk.inj (Option.some.inj h)
  · exact ⟨rfl, (if_pos ‹_›).symm⟩
  · exact ⟨rfl, (if_neg ‹_›).symm⟩

section Runs

variable {s u : Setting} {j : Nat} {host : Host σ}

theorem Engine.attributed_invokeMethod (hu : s.Nests j u) {k : Nat}
    (he : ∀ t, Honours (s.attribution host) (exec host k u t)) {node : Node Definition}
    (hnode : u.graph.node? node.id = some node) {d : Definition} (hkind : node.kind = .action d)
    {b : Method} (hb : d.behaviour = .method b) (hbody : ∀ c, (b.body c).Candid) :
    Honours (s.attribution host)
      (.entering node.id d.name ((exec host k).invokeMethod u host node d.name b)) := by
  have hK := s.attribution_lawful host
  refine Honours.entering fun m r m' h => ?_
  have hparams := closed_bindParams hK.closed
    (fun p => he (.read p)) node b.params .empty
  rcases Exec.bind_eq_some h with ⟨e, rfl, hargs⟩ | ⟨args, m₁, hargs, h⟩
  · exact hK.entered (hparams _ _ _ hargs)
  have hbound : Unfailing (m.entering node.id d.name).log m₁.log := hparams _ _ _ hargs
  rcases Exec.bind_eq_some h with ⟨e, -, hrun⟩ | ⟨result, m₂, hrun, h⟩
  -- The run of a program fails in no other way than as a result.
  · rcases (candid_runProgram (hbody _) hrun).2 with ⟨o, ho⟩ | ⟨e, he⟩
    · exact nomatch ho
    · exact nomatch he
  obtain ⟨hquiet, hresult⟩ := candid_runProgram (hbody _) hrun
  rcases hresult with ⟨o, ho⟩ | ⟨e, he⟩
  · obtain rfl := Except.ok.inj ho
    have hrest : Honours (s.attribution host) (do
        publishAll u node.id (outputsOf b o)
        Exec.ofGraph (branchOf u node.id o)) :=
      (hK.congruence.publishAll (o := u.options) node.id _).bind hK.toComposes fun _ =>
        hK.congruence.ofGraph _
    exact hK.entered (hK.trans (hbound.trans hquiet) (hrest _ _ _ h))
  · obtain rfl := Except.ok.inj he
    obtain ⟨rfl, hlog⟩ := blame_action h
    rw [hu.options_eq] at hlog
    have hstart : u.Starts host k node.id d.name m (b.body ⟨node.id, args, u.environment⟩) m₁ :=
      ⟨node, d, b, args, hnode, hkind, rfl, hb, hargs, rfl⟩
    have hinvoked : Unfailing m.log (m.entering node.id d.name).log := .cons rfl
    exact ⟨j, u, m₂.log, hu,
      ⟨hstart, hrun, .refl _, hinvoked.trans (hbound.trans hquiet), rfl⟩, hlog⟩

/-- A task of any of the nested flows accounts for its log. -/
theorem attributed_exec (hg : Reachable Definition.Candid s.graph) (k : Nat) (hu : s.Nests j u)
    (t : Task) : Honours (s.attribution host) (exec host k u t) := by
  have hK := s.attribution_lawful host
  induction k generalizing j u t with
  | zero => exact .exhausted
  | succ k ih =>
    refine hK.step (ih hu) (fun node hnode d hkind b hb => ?_)
      (fun node hnode d hkind inner hinner _ memory t => ?_) t
    · have hopen := (hu.reachable hg).isOpen (node?_mem hnode).1 hkind
      exact Engine.attributed_invokeMethod hu (ih hu) hnode hkind hb (hopen.method b hb)
    · exact Setting.attribution_within (ih (.child hnode hkind hinner hu) t) memory

theorem attributed_perform (hg : Reachable Definition.Candid s.graph) (k : Nat) (q : Query) :
    Honours (s.attribution host) ((exec host k).perform s q) := by
  have hC := (s.attribution_lawful host).congruence
  have he : ∀ t, Honours (s.attribution host) (exec host k s t) := attributed_exec hg k .self
  exact @Exec.Congruence.perform σ σ _ hC (exec host k) (exec host k) s s.options he q

end Runs

/-! ## Logs without failures -/

/-- The same machine with a log in which no failures are noted. -/
def Machine.mute (m : Machine σ) : Machine σ := { m with log := m.log.filter fun e => !e.isFailure }

/-- The same options, but that failures are not logged. -/
def Options.mute (o : Options) : Options := { o with logNodeErrors := false }

/-- A step that does what another does, but may not note failures. -/
def Mutes (x y : Exec σ α) : Prop := Exec.Mirrors Machine.mute x y

theorem Machine.projection_mute : Exec.Projection (Machine.mute (σ := σ)) where
  memory _ := rfl
  withMemory _ _ := rfl
  withEvent m e he := by
    have hkept : (e :: m.log).filter (fun e => !e.isFailure) =
        e :: m.log.filter fun e => !e.isFailure := List.filter_cons_of_pos (by simp [he])
    simp only [Machine.mute, hkept]

theorem mutes_congruence : Exec.Congruence fun x y : Exec σ _ => Mutes x y :=
  Machine.projection_mute.congruence

/-- A failure that is not noted is the same failure. -/
theorem Mutes.blame (s : Setting) (n : NodeId) (define : String) (e : BodyError) :
    Mutes (σ := σ) (α := α) (Engine.blame s n define e)
      (Engine.blame (s.under s.options.mute) n define e) := by
  intro m
  cases e with
  | flow e => rfl
  | action e =>
    have hoff : (s.under s.options.mute).options.logNodeErrors = false := rfl
    simp only [Engine.blame, hoff, Bool.false_eq_true, if_false]
    split
    · have hnoted : (Event.nodeFailed n define s.depth s.callers e :: m.log).filter
          (fun e => !e.isFailure) = m.log.filter fun e => !e.isFailure :=
        List.filter_cons_of_neg (by simp [Event.isFailure])
      exact congrArg (fun log => some (_, Machine.mk m.memory log m.host)) hnoted.symm
    · rfl

/-- Whether failures are logged makes no difference but to the log, whatever bodies are run. -/
theorem mutes_exec (host : Host σ) (k : Nat) (s : Setting) (t : Task) :
    Mutes (exec host k s t) (exec host k (s.under s.options.mute) t) :=
  have hC : Exec.FullCongruence host host fun x y : Exec σ _ => Mutes x y :=
    Machine.projection_mute.fullCongruence fun _ _ => rfl
  hC.tasks (o := s.options) (p := s.options.mute) rfl
    (fun u hu n define e => hu ▸ Mutes.blame u n define e) k s rfl t

theorem mutes_perform (host : Host σ) (k : Nat) (s : Setting) (q : Query) :
    Mutes ((exec host k).perform s q) ((exec host k).perform (s.under s.options.mute) q) :=
  mutes_congruence.perform (mutes_exec host k s) q

/-- A run that is to log no failures logs none, however it ends. -/
theorem unfailing_perform {s : Setting} (hg : Reachable Definition.Candid s.graph)
    (hoff : s.options.logNodeErrors = false) {host : Host σ} {k : Nat} {q : Query}
    {m m' : Machine σ} {r : Except FlowError Unit}
    (h : (exec host k).perform s q m = some (r, m')) : Unfailing m.log m'.log := by
  have haccounts := attributed_perform hg k q m r m' h
  match r with
  | .error (.action n define e) =>
    obtain ⟨j, u, log, -, hraises, hlog⟩ := haccounts
    rw [hlog, hoff]
    exact hraises.unfailing
  | .ok () | .error (.wrongRole ..) | .error (.emptyOutput ..) | .error (.cycle _)
  | .error (.tooDeep ..) | .error (.graph _) => exact haccounts

/-- Errors of bodies are attributed and logged once, at the node that failed, over graphs of the
kinds of the library and of generated kinds nested in one another. If a run from a control port, the
run of a node or a read ends with the error of a body, the error names the node, its kind and the
cause as they are where the body raised it, in one of the flows of the run; up to there the log of
the run notes no failure, and then it ends with the note of this one and the depth and the callers
of that flow. However else it ends, it notes no failure. If failures are not to be logged none is
noted in any case, and but for this the run does the same. -/
theorem failures_attributed {s : Setting} (hg : Reachable Definition.Candid s.graph) (host : Host σ)
    (k : Nat) (q : Query) {m m' : Machine σ} {r : Except FlowError Unit}
    (h : (exec host k).perform s q m = some (r, m')) :
    (∀ n define e, r = .error (.action n define e) → ∃ j u log, s.Nests j u ∧
      u.Raises host n define e m.log log ∧ Unfailing m.log log ∧
      m'.log =
        if s.options.logNodeErrors then .nodeFailed n define u.depth u.callers e :: log else log) ∧
    ((∀ n define e, r ≠ .error (.action n define e)) → Unfailing m.log m'.log) ∧
    ∃ m₀, (exec host k).perform (s.under s.options.mute) q m = some (r, m₀) ∧
      Unfailing m.log m₀.log ∧ m₀.mute = m'.mute := by
  have haccounts := attributed_perform hg k q m r m' h
  refine ⟨?_, fun hother => ?_, ?_⟩
  · rintro n define e rfl
    obtain ⟨j, u, log, hu, hraises, hlog⟩ := haccounts
    exact ⟨j, u, log, hu, hraises, hraises.unfailing, hlog⟩
  · match r with
    | .error (.action n define e) => exact absurd rfl (hother n define e)
    | .ok () | .error (.wrongRole ..) | .error (.emptyOutput ..) | .error (.cycle _)
    | .error (.tooDeep ..) | .error (.graph _) => exact haccounts
  · -- The run that logs no failures does the same from a log in which none is noted.
    have hmuted := mutes_perform host k s q m
    have hagain := mutes_perform host k (s.under s.options.mute) q m
    rw [h] at hmuted
    obtain ⟨⟨r₀, m₀⟩, hrun, hend⟩ := Option.map_eq_some_iff.1 (hagain.symm.trans hmuted)
    obtain ⟨rfl, hmute⟩ := Prod.mk.inj hend
    have hgraph : Reachable Definition.Candid (s.under s.options.mute).graph := hg
    exact ⟨m₀, hrun, unfailing_perform hgraph rfl hrun, hmute⟩

theorem reachable_candid_halfFlow : Reachable Definition.Candid halfFlow.graph := by
  have hrefuse : Definition.refuse.Candid :=
    .method
      (m := ⟨"Refuse", [], some .any, [], none, some (.compute fun _ => .error (.failed "no"))⟩)
      rfl fun body hbody c => Option.some.inj hbody ▸ Library.candid_compute _ c
  have hstray : MethodDecl.stray.kind.Candid :=
    .method (m := .stray) rfl fun body hbody c => Option.some.inj hbody ▸ Library.candid_compute _ c
  have hinner : Reachable Definition.Candid halfInner := by
    refine .foldl (fun e he k hk => ?_) (.blank 1 .standard)
    simp only [List.mem_cons, List.not_mem_nil, or_false] at he
    rcases he with rfl | rfl | rfl
    case inr.inl => exact Option.some.inj hk ▸ hrefuse
    all_goals simp [Edit.offers] at hk
  have hhalf : Definition.half.Candid := .generated (s := .half) (g := halfInner) rfl hinner
  refine .foldl (fun e he k hk => ?_) (.blank 0 .standard)
  simp only [List.mem_cons, List.not_mem_nil, or_false] at he
  rcases he with rfl | rfl | rfl | rfl
  case inr.inr.inr => simp [Edit.offers] at hk
  all_goals obtain rfl := Option.some.inj hk
  · exact hhalf
  · exact hstray
  · exact standard_concat.candid

/-- The read of the second output fails in the flow that the first node opens. -/
theorem failures_attributed_halfFlow : ∃ m' j u log m₀,
    (exec nullHost 12).perform halfFlow (.read ⟨0, 3⟩) ⟨.start .empty, [], ()⟩ =
      some (.error (.action ⟨3⟩ "Refuse" (.failed "no")), m') ∧
    halfFlow.Nests j u ∧ u.Raises nullHost ⟨3⟩ "Refuse" (.failed "no") [] log ∧
    m'.log = .nodeFailed ⟨3⟩ "Refuse" u.depth u.callers (.failed "no") :: log ∧
    m'.log.map Event.isFailure = [true, false, false, false] ∧ u.depth = 1 ∧ u.callers = [⟨1⟩] ∧
    (exec nullHost 12).perform (halfFlow.under halfFlow.options.mute) (.read ⟨0, 3⟩)
        ⟨.start .empty, [], ()⟩ = some (.error (.action ⟨3⟩ "Refuse" (.failed "no")), m₀) ∧
    Unfailing [] m₀.log := by
  have hrun : ((exec nullHost 12).perform halfFlow (.read ⟨0, 3⟩) ⟨.start .empty, [], ()⟩).map
      (fun r => (r.1, r.2.log)) = some (.error (.action ⟨3⟩ "Refuse" (.failed "no")),
        [.nodeFailed ⟨3⟩ "Refuse" 1 [⟨1⟩] (.failed "no"), .nodeInvoked ⟨3⟩ "Refuse",
          .nodeInvoked ⟨2⟩ "Return", .nodeInvoked ⟨1⟩ "Half"]) := by
    decide +kernel
  obtain ⟨⟨r, m'⟩, hrun, hend⟩ := Option.map_eq_some_iff.1 hrun
  obtain ⟨rfl, hlog⟩ := Prod.mk.inj hend
  obtain ⟨haction, -, m₀, hmuted, hunfailing, -⟩ :=
    failures_attributed (s := halfFlow) reachable_candid_halfFlow nullHost 12 (.read ⟨0, 3⟩) hrun
  obtain ⟨j, u, log, hu, hraises, -, hnoted⟩ := haction _ _ _ rfl
  have hnoted : m'.log = .nodeFailed ⟨3⟩ "Refuse" u.depth u.callers (.failed "no") :: log := hnoted
  obtain ⟨-, -, hdepth, hcallers, -⟩ :=
    Event.nodeFailed.inj (List.head_eq_of_cons_eq (hnoted.symm.trans hlog))
  exact ⟨m', j, u, log, m₀, hrun, hu, hraises, hnoted, by rw [hlog]; rfl, hdepth, hcallers, hmuted,
    hunfailing⟩

end EffectGraph
