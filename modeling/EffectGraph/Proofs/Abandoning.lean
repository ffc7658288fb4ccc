import EffectGraph.Proofs.Bookkeeping

/-!
# Requests that are given up

The bodies that the interpreter runs wait for the answers to their requests. A body may also give up
a request that it has made, while what is done for it waits for the host, and go on with an answer
of its own making. All that was under way for the request stops there, so the nodes that were being
run for it stay noted (`Setting.Waits.running_eq`), and when the invocation of the body ends, the
innermost note is taken back, which is one of them in the stead of the body's own
(`Setting.InvokesHastily.running_eq`). So the flow is left with its notes as they were exactly if no
node was being run for a request that the body gave up.
-/

namespace EffectGraph

open EffectGraph.Graph

variable {σ α : Type}

/-! ## Waiting -/

/-- What is done for a request comes to a point at which it waits for the host. The list has the
nodes that are being run for the request then, innermost first. Here each of them is a method whose
body makes the request for which the next one is run, and the first is run without another before
it. -/
inductive Setting.Waits (s : Setting) (host : Host σ) :
    Request → Machine σ → List NodeId → Machine σ → Prop
  | consult {v : Value} {m : Machine σ} : Waits s host (.consult v) m [] m
  | invoke {k : Nat} {n : NodeId} {define : String} {x : Program (Except BodyError Outcome)}
    {q : Request} {next : q.Answer → Program (Except BodyError Outcome)} {nodes : List NodeId}
    {m m₀ m₁ m₂ : Machine σ} (hstart : s.Starts host k n define m x m₀)
    (hmoment : s.Moment host x m₀ (.ask q next) m₁) (h : Waits s host q m₁ nodes m₂) :
    Waits s host (.invoke n) m (nodes ++ [n]) m₂
  | run {p : PortId} {port : PlacedPort} {nodes : List NodeId} {m m' : Machine σ}
    (hport : s.graph.port? p = some port) (hrole : port.role = .controlInput)
    (h : Waits s host (.invoke port.node) m nodes m') : Waits s host (.run p) m nodes m'
  | runNode {n : NodeId} {p : PortId} {nodes : List NodeId} {m m' : Machine σ}
    (hp : s.graph.controlInput? n = some p) (h : Waits s host (.run p) m nodes m') :
    Waits s host (.runNode n) m nodes m'
  | read {p : PortId} {port : PlacedPort} {nodes : List NodeId} {m m' : Machine σ}
    (hmemo : m.memory.scopes.find? p = none) (hport : s.graph.port? p = some port)
    (hrole : port.role = .valueOutput) (hidle : port.node ∉ m.memory.running)
    (h : Waits s host (.invoke port.node) m nodes m') : Waits s host (.read p) m nodes m'

theorem Setting.Waits.running_eq {s : Setting} {host : Host σ} {q : Request} {nodes : List NodeId}
    {m m' : Machine σ} (h : s.Waits host q m nodes m') :
    m'.memory.running = nodes ++ m.memory.running := by
  induction h with
  | consult => rfl
  | invoke hstart hmoment _ ih =>
    rw [ih, hmoment.running_eq, hstart.running_eq, List.append_assoc, List.singleton_append]
  | run _ _ _ ih => exact ih
  | runNode _ _ ih => exact ih
  | read _ _ _ _ _ ih => exact ih

/-! ## Hasty bodies -/

/-- The moments that a program comes to that may give up requests. The list has the nodes that were
being run for the requests given up, the last ones first. -/
inductive Setting.Hastens (s : Setting) (host : Host σ) (x : Program α) (m : Machine σ) :
    List NodeId → Program α → Machine σ → Prop
  | start : Hastens s host x m [] x m
  | answered {left : List NodeId} {q : Request} {next : q.Answer → Program α} {a : q.Answer}
    {m₁ m₂ : Machine σ} (k : Nat) (h : Hastens s host x m left (.ask q next) m₁)
    (hanswer : Engine.answer (exec host k) s host q m₁ = some (.ok a, m₂)) :
    Hastens s host x m left (next a) m₂
  | givenUp {left nodes : List NodeId} {q : Request} {next : q.Answer → Program α}
    {m₁ m₂ : Machine σ} (a : q.Answer) (h : Hastens s host x m left (.ask q next) m₁)
    (hwaits : s.Waits host q m₁ nodes m₂) : Hastens s host x m (nodes ++ left) (next a) m₂

theorem Setting.Hastens.running_eq {s : Setting} {host : Host σ} {x y : Program α}
    {left : List NodeId} {m m' : Machine σ} (h : s.Hastens host x m left y m') :
    m'.memory.running = left ++ m.memory.running := by
  induction h with
  | start => rfl
  | answered k _ hanswer ih => exact (running_answer host k s _ _ _ _ hanswer).trans ih
  | givenUp _ _ hwaits ih => rw [hwaits.running_eq, ih, List.append_assoc]

/-- What is done when a body has ended: an error of it is noted, or the values that it leaves are
published and the control output to follow is looked up. -/
def Engine.conclude (s : Setting) (n : NodeId) (define : String) (b : Method) :
    Except BodyError Outcome → Exec σ (Option PortId)
  | .error e => blame s n define e
  | .ok outcome => do
    publishAll s n (outputsOf b outcome)
    Exec.ofGraph (branchOf s n outcome)

theorem Engine.invokeMethod_eq_conclude (engine : Engine σ) (s : Setting) (host : Host σ)
    (node : Node Definition) (define : String) (b : Method) :
    engine.invokeMethod s host node define b =
      engine.bindParams s node b.params .empty >>= fun args =>
        engine.runProgram s host (b.body ⟨node.id, args, s.environment⟩) >>=
          conclude s node.id define b := by
  refine congrArg (engine.bindParams s node b.params .empty >>= ·) (funext fun args => ?_)
  refine congrArg (engine.runProgram s host _ >>= ·) (funext fun r => ?_)
  cases r <;> rfl

/-- The end of a body concerns no node that is being run. -/
theorem Engine.running_conclude {s : Setting} {n : NodeId} {define : String} {b : Method}
    {r : Except BodyError Outcome} {m m' : Machine σ} {result : Except FlowError (Option PortId)}
    (h : conclude s n define b r m = some (result, m')) :
    m'.memory.running = m.memory.running := by
  have hlasting := Memory.lasting_running
  have hK := (hlasting.lawful (σ := σ)).toComposes
  cases r with
  | error e =>
    have hblame : Honours (.ofMemory fun mem mem' => mem'.running = mem.running)
        (blame (σ := σ) s n define e : Exec σ (Option PortId)) := hlasting.blame e
    exact hblame _ _ _ h
  | ok outcome =>
    have hpublish : Honours (.ofMemory fun mem mem' => mem'.running = mem.running)
        (publishAll (σ := σ) s n (outputsOf b outcome)) :=
      (hlasting.lawful (σ := σ)).congruence.publishAll (s := s) (o := s.options) n _
    exact (hpublish.bind hK fun _ => .ofGraph hK (fun _ _ => rfl) _) _ _ _ h

/-- An invocation of a method node whose body may give up requests. -/
inductive Setting.InvokesHastily (s : Setting) (host : Host σ) (n : NodeId) (m : Machine σ) :
    Except FlowError (Option PortId) → List NodeId → Machine σ → Prop
  | intro {k : Nat} {node : Node Definition} {d : Definition} {b : Method}
    {args : Table String Value} {left : List NodeId} {r : Except BodyError Outcome}
    {result : Except FlowError (Option PortId)} {m₀ m₁ m₂ : Machine σ}
    (hnode : s.graph.node? n = some node) (hkind : node.kind = .action d)
    (hb : d.behaviour = .method b)
    (hargs : Engine.bindParams (exec host k) s node b.params .empty (m.entering n d.name) =
      some (.ok args, m₀))
    (hbody : s.Hastens host (b.body ⟨n, args, s.environment⟩) m₀ left (.pure r) m₁)
    (hend : Engine.conclude s n d.name b r m₁ = some (result, m₂)) :
    InvokesHastily s host n m result left
      ⟨⟨m₂.memory.scopes, m₂.memory.running.tail⟩, m₂.log, m₂.host⟩

namespace Setting.InvokesHastily

variable {s : Setting} {host : Host σ} {n : NodeId} {m m' : Machine σ} {left : List NodeId}
  {result : Except FlowError (Option PortId)}

/-- The innermost note is taken back, whichever it is. -/
theorem running_eq (h : s.InvokesHastily host n m result left m') :
    m'.memory.running = (left ++ n :: m.memory.running).tail := by
  obtain ⟨hnode, hkind, hb, hargs, hbody, hend⟩ := h
  have hstart : s.Starts host _ n _ m _ _ := ⟨_, _, _, _, hnode, hkind, rfl, hb, hargs, rfl⟩
  refine congrArg List.tail ((Engine.running_conclude hend).trans ?_)
  rw [hbody.running_eq, hstart.running_eq]

/-- The notes of a flow are as they were exactly if no node was being run for a request that the
body gave up. -/
theorem running_eq_iff (h : s.InvokesHastily host n m result left m') :
    m'.memory.running = m.memory.running ↔ left = [] := by
  rw [h.running_eq]
  constructor
  · intro hrunning
    have hlength := congrArg List.length hrunning
    rw [List.length_tail, List.length_append, List.length_cons] at hlength
    exact List.eq_nil_of_length_eq_zero (by omega)
  · rintro rfl
    rfl

end Setting.InvokesHastily

/-- A body that the interpreter runs gives up nothing. -/
theorem Setting.Hastens.of_runProgram {s : Setting} {host : Host σ} {k : Nat} {x y : Program α}
    {left : List NodeId} {m₀ m m' : Machine σ} {r : Except FlowError α}
    (h : s.Hastens host y m₀ left x m)
    (hrun : Engine.runProgram (exec host k) s host x m = some (r, m')) :
    ∃ a, r = .ok a ∧ s.Hastens host y m₀ left (.pure a) m' := by
  induction x generalizing m with
  | pure a =>
    obtain ⟨rfl, rfl⟩ := Prod.mk.inj (Option.some.inj hrun)
    exact ⟨a, rfl, h⟩
  | ask q next ih =>
    rcases Exec.bind_eq_some hrun with ⟨e, -, hanswer⟩ | ⟨a, m₁, hanswer, hrun⟩
    · obtain ⟨a, ha⟩ := Engine.answer_succeeds hanswer
      simp at ha
    · exact ih a (h.answered k hanswer) hrun

/-- An invocation by the interpreter that comes as far as a body is one in which nothing is given
up. -/
theorem Setting.InvokesHastily.of_exec {s : Setting} {host : Host σ} {k : Nat} {n : NodeId}
    {define : String} {m m₀ m' : Machine σ} {x : Program (Except BodyError Outcome)}
    {result : Except FlowError (Option PortId)} (hstart : s.Starts host k n define m x m₀)
    (hrun : exec host (k + 1) s (.invoke n) m = some (result, m')) :
    s.InvokesHastily host n m result [] m' := by
  obtain ⟨node, d, b, args, hnode, hkind, rfl, hb, hargs, rfl⟩ := hstart
  obtain rfl : node.id = n := (node?_mem hnode).2
  obtain ⟨m₂, hbehave, rfl⟩ :=
    Engine.invoke_eq_some hnode (hrun : (exec host k).invoke s host node.id m = _)
  simp only [Engine.behave, hkind, hb] at hbehave
  have hbehave : (exec host k).invokeMethod s host node d.name b (m.entering node.id d.name) =
      some (result, m₂) := hbehave
  rw [Engine.invokeMethod_eq_conclude, Exec.bind_of_eq_ok hargs] at hbehave
  rcases Exec.bind_eq_some hbehave with ⟨e, -, hbody⟩ | ⟨r, m₁, hbody, hend⟩
  · obtain ⟨a, ha, -⟩ := Hastens.start.of_runProgram hbody
    simp at ha
  · obtain ⟨a, ha, hmoment⟩ := Hastens.start.of_runProgram hbody
    obtain rfl := Except.ok.inj ha
    exact .intro hnode hkind hb hargs hmoment hend

/-! ## A hasty body -/

/-- A kind whose body waits for the host. -/
def MethodDecl.waiting : MethodDecl where
  name := "Waiting"
  body := some fun _ => .ask (.consult .null) fun _ => .pure (.ok .empty)

/-- A kind whose body runs the second node of the graph. -/
def MethodDecl.hasty : MethodDecl where
  name := "Hasty"
  body := some fun _ => .ask (.runNode ⟨2⟩) fun _ => .pure (.ok .empty)

def hastyFlow : Setting :=
  .top ([.addNode (.action MethodDecl.hasty.kind), .addNode (.action MethodDecl.waiting.kind)].foldl
    Edit.perform (.empty 0 .standard)) .empty ⟨32, true⟩ .standard

/-- While the first body waits for the run of the second node, the body of that node is at work and
the last of the nodes being run is the second. If the first body gives the run up, this stays so
while it goes on, and its node is still noted when its invocation has succeeded. -/
theorem hasty_body_leaves_note :
    (∃ x next m₁ m₂, hastyFlow.Starts nullHost 5 ⟨1⟩ "Hasty" ⟨.start .empty, [], ()⟩
        (.ask (.runNode ⟨2⟩) next) m₁ ∧
      hastyFlow.Starts nullHost 5 ⟨2⟩ "Waiting" m₁ x m₂ ∧
      (hastyFlow.status m₂.memory).running = [⟨1⟩, ⟨2⟩]) ∧
    (∃ x m₁ y m₂, hastyFlow.Starts nullHost 5 ⟨1⟩ "Hasty" ⟨.start .empty, [], ()⟩ x m₁ ∧
      hastyFlow.Hastens nullHost x m₁ [⟨2⟩] y m₂ ∧
      (hastyFlow.status m₂.memory).running = [⟨1⟩, ⟨2⟩]) ∧
    ∃ exit m', hastyFlow.InvokesHastily nullHost ⟨1⟩ ⟨.start .empty, [], ()⟩ (.ok exit) [⟨2⟩] m' ∧
      (hastyFlow.status m'.memory).running = [⟨1⟩] := by
  let fresh : Machine Unit := ⟨.start .empty, [], ()⟩
  let m₁ : Machine Unit := fresh.entering ⟨1⟩ "Hasty"
  let m₂ : Machine Unit := m₁.entering ⟨2⟩ "Waiting"
  let ended : Program (Except BodyError Outcome) := .pure (.ok .empty)
  have hstart : hastyFlow.Starts nullHost 5 ⟨1⟩ "Hasty" fresh
      (.ask (.runNode ⟨2⟩) fun _ => ended) m₁ := ⟨_, _, _, _, rfl, rfl, rfl, rfl, rfl, rfl⟩
  have hnested : hastyFlow.Starts nullHost 5 ⟨2⟩ "Waiting" m₁
      (.ask (.consult .null) fun _ => ended) m₂ := ⟨_, _, _, _, rfl, rfl, rfl, rfl, rfl, rfl⟩
  have hwaits : hastyFlow.Waits nullHost (.runNode ⟨2⟩) m₁ [⟨2⟩] m₂ :=
    .runNode (p := ⟨0, 2⟩) rfl (.run rfl rfl (.invoke hnested .start .consult))
  have hbody : hastyFlow.Hastens nullHost (.ask (.runNode ⟨2⟩) fun _ => ended) m₁ [⟨2⟩] ended m₂ :=
    .givenUp (q := .runNode ⟨2⟩) (.ok ()) .start hwaits
  refine ⟨⟨_, _, m₁, m₂, hstart, hnested, rfl⟩, ⟨_, m₁, _, m₂, hstart, hbody, rfl⟩, ?_⟩
  exact ⟨some ⟨0, 1⟩, _, .intro (k := 5) rfl rfl rfl rfl hbody rfl, rfl⟩

end EffectGraph
