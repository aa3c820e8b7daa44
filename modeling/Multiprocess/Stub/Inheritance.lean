import Multiprocess.Lib.Dag
import Multiprocess.Stub.Slices

/-!
# Inherited methods

`mpgen` writes the methods of an interface, and of all the interfaces it extends, into its
`ProxyClient` and its `ProxyServer` (`ForEachMethod` and `Generate`, `src/src/mp/gen.cpp`).

No method is missed, and what an interface extends comes before it. A method is written once for
each path to its interface along `extends`, so that where two paths meet again the classes have it
twice (`each_method_once_iff`).

Interfaces do not extend each other in a circle, which the schema compiler refuses. What the body
of a method is, is not said here.
-/

namespace Multiprocess.Stub

/-! ## The schema -/

/-- A method with the fields of its params and results structs; `proxied_name` is its
`$Proxy.name`. -/
structure MethodSchema where
  name : String
  proxied_name : Option String
  params : List SchemaField
  results : List SchemaField
  deriving DecidableEq

/-- The interfaces of a schema. None extends itself, and no two methods of one have the same
name. -/
structure Interfaces (I : Type) where
  shortDisplayName : I → String
  superclasses : I → List I
  methods : I → List MethodSchema
  finite : Finite I
  acyclic : ∀ interface, ¬ Relation.TransGen (Dag.Edge superclasses) interface interface
  names : ∀ interface, ((methods interface).map MethodSchema.name).Nodup

namespace Interfaces

variable {I : Type}

/-- What extends what. -/
def dag (g : Interfaces I) : Dag I :=
  have := g.finite
  Dag.ofFinite g.superclasses g.acyclic

/-- `ForEachMethod`; `σ` is what the callback writes to. -/
def forEachMethod {σ : Type} (g : Interfaces I) (callback : I → MethodSchema → σ → σ)
    (interface : I) (s : σ) : σ :=
  let s := (g.superclasses interface).foldl (fun s super => g.forEachMethod callback super s) s
  (g.methods interface).foldl (fun s method => callback interface method s) s
termination_by g.dag.acyclic.wrap interface
decreasing_by assumption

/-- The calls of the callback in order. -/
def calls (g : Interfaces I) (interface : I) : List (I × MethodSchema) :=
  g.forEachMethod (fun interface method calls => calls ++ [(interface, method)]) interface []

/-- A method of the interface or of one it extends, directly or not. -/
def Inherits (g : Interfaces I) (interface : I) (call : I × MethodSchema) : Prop :=
  Relation.ReflTransGen (Dag.Edge g.superclasses) interface call.1 ∧ call.2 ∈ g.methods call.1

/-- Each method of the interface and of those it extends, once, and none before the methods of what
its own interface extends. -/
structure EachOnce (g : Interfaces I) (interface : I) (calls : List (I × MethodSchema)) : Prop where
  complete : ∀ call, call ∈ calls ↔ g.Inherits interface call
  once : calls.Nodup
  ordered : calls.Pairwise fun call next =>
    ¬ Relation.TransGen (Dag.Edge g.superclasses) call.1 next.1

/-- There is one path at most to each interface that has methods. -/
def SinglePath (g : Interfaces I) (interface : I) : Prop :=
  ∀ super, g.methods super ≠ [] → Subsingleton (Dag.Walk g.superclasses super interface)

variable (g : Interfaces I)

/-- The methods of one interface. -/
def own (interface : I) : List (I × MethodSchema) := (g.methods interface).map (interface, ·)

theorem mem_own {interface : I} {call : I × MethodSchema} :
    call ∈ g.own interface ↔ call.1 = interface ∧ call.2 ∈ g.methods call.1 := by
  rw [own, List.mem_map]
  constructor
  · rintro ⟨method, hm, rfl⟩
    exact ⟨rfl, hm⟩
  · rintro ⟨rfl, hm⟩
    exact ⟨call.2, hm, rfl⟩

theorem forEachMethod_eq {σ : Type} (callback : I → MethodSchema → σ → σ) (interface : I) (s : σ) :
    g.forEachMethod callback interface s = ((g.dag.postorder interface).flatMap g.own).foldl
      (fun s call => callback call.1 call.2 s) s := by
  have hvisit : ∀ interface s, g.forEachMethod callback interface s =
      (g.own interface).foldl (fun s call => callback call.1 call.2 s)
        ((g.dag.succ interface).foldl (fun s super => g.forEachMethod callback super s) s) := by
    intro interface s
    rw [forEachMethod, own, List.foldl_map]
    rfl
  rw [List.foldl_flatMap]
  exact g.dag.foldl_postorder hvisit interface s

/-- The methods come interface by interface, in the order of the visits. -/
theorem calls_eq (interface : I) :
    g.calls interface = (g.dag.postorder interface).flatMap g.own := by
  rw [calls, forEachMethod_eq]
  have happend : ∀ l : List (I × MethodSchema),
      l.foldl (fun calls call => calls ++ [call]) [] = l := by
    intro l
    rw [List.foldl_append_eq_append, List.nil_append, ← List.flatMap_def, List.flatMap_singleton']
  exact happend _

/-- First the calls for what the interface extends. -/
theorem calls_unfold (interface : I) :
    g.calls interface = (g.superclasses interface).flatMap g.calls ++ g.own interface := by
  have hcalls : g.calls = fun super => (g.dag.postorder super).flatMap g.own := funext g.calls_eq
  rw [hcalls, ← List.flatMap_assoc, ← List.flatMap_singleton g.own, ← List.flatMap_append]
  exact congrArg (List.flatMap g.own) (g.dag.postorder_eq interface)

/-- Any callback is called so. -/
theorem forEachMethod_eq_foldl {σ : Type} (callback : I → MethodSchema → σ → σ) (interface : I)
    (s : σ) : g.forEachMethod callback interface s =
      (g.calls interface).foldl (fun s call => callback call.1 call.2 s) s := by
  rw [calls_eq, forEachMethod_eq]

/-- No method is missed, in any schema, and none is added. -/
theorem mem_calls {interface : I} {call : I × MethodSchema} :
    call ∈ g.calls interface ↔ g.Inherits interface call := by
  rw [calls_eq, List.mem_flatMap]
  constructor
  · rintro ⟨super, hs, hc⟩
    obtain ⟨rfl, hm⟩ := g.mem_own.mp hc
    exact ⟨g.dag.mem_postorder.mp hs, hm⟩
  · rintro ⟨hs, hm⟩
    exact ⟨call.1, g.dag.mem_postorder.mpr hs, g.mem_own.mpr ⟨rfl, hm⟩⟩

/-- What an interface extends brings no call for the interface itself. -/
theorem ne_of_mem_superclasses {interface : I} {call : I × MethodSchema}
    (h : call ∈ (g.superclasses interface).flatMap g.calls) : call.1 ≠ interface := by
  rintro rfl
  obtain ⟨super, hsuper, hin⟩ := List.mem_flatMap.mp h
  exact g.acyclic call.1 (.head' hsuper (g.mem_calls.mp hin).1)

/-- At each of its calls, the methods of all that the interface of a method extends have had one. -/
theorem preceded_calls (interface : I) :
    Dag.Preceded (fun call super => Relation.TransGen (Dag.Edge g.superclasses) call.1 super.1 ∧
      super.2 ∈ g.methods super.1) (g.calls interface) := by
  rw [calls_eq]
  refine (g.dag.preceded_postorder interface).flatMap fun a call hcall super hsuper => ?_
  obtain ⟨rfl, -⟩ := g.mem_own.mp hcall
  exact ⟨super.1, hsuper.1, g.mem_own.mpr ⟨rfl, hsuper.2⟩⟩

/-- A method is called once for each path to its interface. -/
theorem count_calls [DecidableEq I] (interface : I) (call : I × MethodSchema) :
    (g.calls interface).count call =
      Nat.card (Dag.Walk g.superclasses call.1 interface) * (g.methods call.1).count call.2 := by
  have howner : ∀ super, call ∈ g.own super → super = call.1 := fun _ h => (g.mem_own.mp h).1.symm
  have hown : (g.own call.1).count call = (g.methods call.1).count call.2 :=
    List.count_map_of_injective _ _ (fun _ _ h => (Prod.mk.inj h).2) call.2
  rw [calls_eq, ← hown]
  exact g.dag.count_flatMap_postorder interface call.1 howner

/-- What is called once for each path is called once exactly if there is one path. -/
theorem eachOnce_calls_iff (interface : I) :
    g.EachOnce interface (g.calls interface) ↔ g.SinglePath interface := by
  classical
  constructor
  · intro h super hmethods
    obtain ⟨method, hm⟩ := List.exists_mem_of_ne_nil _ hmethods
    have honce := List.nodup_iff_count_le_one.mp h.once (super, method)
    have hcount : (g.methods super).count method = 1 :=
      List.count_eq_one_of_mem (g.names super).of_map hm
    have hfinite : Finite (Dag.Walk g.superclasses super interface) :=
      g.dag.finite_walk interface super
    rw [count_calls, hcount, Nat.mul_one] at honce
    exact Finite.card_le_one_iff_subsingleton.mp honce
  · intro hpath
    have honce : (g.calls interface).Nodup := by
      rw [List.nodup_iff_count_le_one]
      intro call
      rw [count_calls]
      -- an interface without methods may well be visited again
      by_cases hmethods : g.methods call.1 = []
      · rw [hmethods, List.count_nil, Nat.mul_zero]
        exact Nat.zero_le 1
      · have hsingle := hpath call.1 hmethods
        have hcard : Nat.card (Dag.Walk g.superclasses call.1 interface) ≤ 1 :=
          Finite.card_le_one_iff_subsingleton.mpr hsingle
        have hcount : (g.methods call.1).count call.2 ≤ 1 :=
          List.nodup_iff_count_le_one.mp (g.names call.1).of_map call.2
        exact Nat.mul_le_mul hcard hcount
    refine ⟨fun call => g.mem_calls, honce, ?_⟩
    refine ((g.preceded_calls interface).pairwise honce).imp_of_mem fun _ hnext hnot htrans => ?_
    exact hnot ⟨htrans, (g.mem_calls.mp hnext).2⟩

/-- Interfaces that extend one other at most are such schemas. -/
theorem singlePath_of_single (single : ∀ interface, (g.superclasses interface).length ≤ 1)
    (interface : I) : g.SinglePath interface :=
  fun super _ => g.dag.subsingleton_walk single interface super

end Interfaces

/-! ## What `Generate` writes -/

/-- What a node declares. -/
inductive NodeSchema (I : Type) where
  | struc (fields : List SchemaField)
  | interface (interface : I)
  | other

/-- A node of the file. `proxied_class_type` is its `$Proxy.wrap`, empty without one. -/
structure Node (I : Type) where
  name : String
  proxied_class_type : String
  schema : NodeSchema I

/-- A specialization of `ProxyMethod`. -/
structure ProxyMethod where
  params : String
  impl : String
  deriving DecidableEq

/-- A method of a `ProxyClient`: the schema method it is written for, the number of its `M` alias
and the type in it, and the arguments of `clientInvoke`. -/
structure ClientMethod (I : Type) where
  call : I × MethodSchema
  ordinal : Nat
  traits : String
  is_static : Bool
  request : String
  pieces : List Piece
  has_result : Bool

/-- A method of a `ProxyServer`. -/
structure ServerMethod (I : Type) where
  call : I × MethodSchema
  context : String
  stub : ServerStub

/-- The two classes of an interface. -/
structure Proxy (I : Type) where
  message : String
  interface : I
  client : List (ClientMethod I)
  server : List (ServerMethod I)

/-- The streams: `accessors` is `accessors_done` too, and `client`, `server` and `method_ordinal`
are those of the interface at hand. -/
structure Output (I : Type) where
  accessors : List String
  methods : List ProxyMethod
  method_ordinal : Nat
  client : List (ClientMethod I)
  server : List (ServerMethod I)
  proxies : List (Proxy I)

/-- `add_accessor`. -/
def addAccessor (accessors : List String) (name : String) : List String :=
  if name ∈ accessors then accessors else accessors ++ [name]

namespace Interfaces

variable {I : Type} [DecidableEq I] (g : Interfaces I) (message_namespace : String)

def methodPrefix (interface : I) (method : MethodSchema) : String :=
  message_namespace ++ "::" ++ g.shortDisplayName interface ++ "::" ++ cap method.name

/-- The schemas of superclasses are copies, so that of all calls only those for the methods of
`interface` itself pass the comparison of addresses. -/
def proxyMethods (node : Node I) (interface method_interface : I) (method : MethodSchema) :
    List ProxyMethod :=
  let is_construct := method.name == "construct"
  let is_destroy := method.name == "destroy"
  if !is_construct && !is_destroy && method_interface == interface then [{
    params := g.methodPrefix message_namespace method_interface method ++ "Params"
    impl := "&" ++ node.proxied_class_type ++ "::" ++ method.proxied_name.getD method.name }]
  else []

/-- The callback of `Generate`. -/
def addMethod (node : Node I) (interface method_interface : I) (method : MethodSchema)
    (out : Output I) : Output I :=
  let is_construct := method.name == "construct"
  let is_destroy := method.name == "destroy"
  let fields := FieldList.ofMethod method.params method.results
  let pieces := emit 0 fields
  { out with
    accessors := pieces.foldl (fun done piece => addAccessor done piece.field.name) out.accessors
    methods :=
      out.methods ++ g.proxyMethods message_namespace node interface method_interface method
    method_ordinal := out.method_ordinal + 1
    client := out.client ++ [{
      call := (method_interface, method)
      ordinal := out.method_ordinal
      traits := g.methodPrefix message_namespace method_interface method ++ "Params"
      is_static := is_construct || is_destroy
      request :=
        "&" ++ message_namespace ++ "::" ++ node.name ++ "::Client::" ++ method.name ++ "Request"
      pieces
      has_result := fields.any (·.retval) }]
    server := out.server ++ [{
      call := (method_interface, method)
      context := cap method.name ++ "Context"
      stub := serverStub is_destroy pieces }] }

/-- The part of the loop over the nodes that is for interfaces. -/
def addInterface (node : Node I) (interface : I) (out : Output I) : Output I :=
  let out := g.forEachMethod (g.addMethod message_namespace node interface) interface
    { out with method_ordinal := 0, client := [], server := [] }
  { out with
    proxies := out.proxies ++ [{
      message := message_namespace ++ "::" ++ node.name
      interface
      client := out.client
      server := out.server }] }

/-- The loop over the nodes. A struct gets accessors for all of its fields. -/
def addNode (out : Output I) (node : Node I) : Output I :=
  match node.schema with
  | .struc fields =>
    let fields := (FieldList.addFields true true [] fields).mergeFields
    { out with
      accessors := fields.foldl (fun done field => addAccessor done field.name) out.accessors }
  | .interface interface =>
    if node.proxied_class_type.isEmpty then out
    else g.addInterface message_namespace node interface out
  | .other => out

def generate (nodes : List (Node I)) : Output I :=
  nodes.foldl (g.addNode message_namespace) ⟨[], [], 0, [], [], []⟩

end Interfaces

/-! ## The two classes -/

theorem nodup_addAccessors {α : Type} {accessors : List String} (h : accessors.Nodup)
    (name : α → String) (l : List α) :
    (l.foldl (fun done a => addAccessor done (name a)) accessors).Nodup := by
  refine List.foldlRecOn (motive := List.Nodup) l _ h fun done hdone a _ => ?_
  unfold addAccessor
  split
  · exact hdone
  · next hnew =>
    rw [← List.concat_eq_append]
    exact hdone.concat hnew

/-- Where the writing of an interface stands after some calls; `proxies` are those of earlier
nodes. -/
structure Output.After {I : Type} (proxies : List (Proxy I)) (out : Output I)
    (calls : List (I × MethodSchema)) : Prop where
  client : out.client.map ClientMethod.call = calls
  server : out.server.map ServerMethod.call = calls
  ordinals : out.client.map ClientMethod.ordinal = List.range calls.length
  method_ordinal : out.method_ordinal = calls.length
  proxies : out.proxies = proxies

/-- Both classes have a method for each call, and number them through. -/
structure Proxy.Follows {I : Type} (g : Interfaces I) (proxy : Proxy I) : Prop where
  client : proxy.client.map ClientMethod.call = g.calls proxy.interface
  server : proxy.server.map ServerMethod.call = g.calls proxy.interface
  ordinals : proxy.client.map ClientMethod.ordinal =
    List.range (g.calls proxy.interface).length

/-- The interface a node is written classes for. -/
def Node.wrapped {I : Type} (node : Node I) : Option I :=
  match node.schema with
  | .interface interface => if node.proxied_class_type.isEmpty then none else some interface
  | .struc _ | .other => none

/-- The classes after some nodes. -/
structure Output.Generated {I : Type} (g : Interfaces I) (out : Output I) (done : List (Node I)) :
    Prop where
  interfaces : out.proxies.map Proxy.interface = done.filterMap Node.wrapped
  follows : ∀ proxy ∈ out.proxies, proxy.Follows g

namespace Output.Generated

variable {I : Type} {g : Interfaces I} {out out' : Output I} {done : List (Node I)} {node : Node I}

theorem skip (h : out.Generated g done) (hnode : node.wrapped = none)
    (same : out'.proxies = out.proxies) : out'.Generated g (done ++ [node]) where
  interfaces := by
    rw [same, h.interfaces, List.filterMap_append, List.filterMap_cons_none hnode,
      List.filterMap_nil, List.append_nil]
  follows := by
    rw [same]
    exact h.follows

theorem push (h : out.Generated g done) {proxy : Proxy I}
    (hnode : node.wrapped = some proxy.interface) (hfollows : proxy.Follows g)
    (added : out'.proxies = out.proxies ++ [proxy]) :
    out'.Generated g (done ++ [node]) where
  interfaces := by
    rw [added, List.map_append, h.interfaces, List.filterMap_append,
      List.filterMap_cons_some hnode, List.filterMap_nil, List.map_singleton]
  follows := by
    rw [added]
    exact List.forall_mem_append.mpr ⟨h.follows, List.forall_mem_singleton.mpr hfollows⟩

end Output.Generated

namespace Interfaces

variable {I : Type} [DecidableEq I] (g : Interfaces I) (message_namespace : String)

/-- One call. -/
theorem after_addMethod {proxies : List (Proxy I)} {out : Output I}
    {done : List (I × MethodSchema)} (h : out.After proxies done) (node : Node I) (interface : I)
    (call : I × MethodSchema) :
    (g.addMethod message_namespace node interface call.1 call.2 out).After proxies
      (done ++ [call]) where
  client := by
    rw [← h.client]
    exact List.map_append
  server := by
    rw [← h.server]
    exact List.map_append
  ordinals := by
    rw [List.length_append, List.length_singleton, List.range_succ, ← h.ordinals,
      ← h.method_ordinal]
    exact List.map_append
  method_ordinal := by
    rw [List.length_append, ← h.method_ordinal]
    rfl
  proxies := h.proxies

/-- All of them. -/
theorem after_calls {proxies : List (Proxy I)} {out : Output I} {done : List (I × MethodSchema)}
    (h : out.After proxies done) (node : Node I) (interface : I)
    (calls : List (I × MethodSchema)) :
    (calls.foldl (fun out call => g.addMethod message_namespace node interface call.1 call.2 out)
      out).After proxies (done ++ calls) := by
  induction calls generalizing out done with
  | nil =>
    rw [List.append_nil]
    exact h
  | cons call calls ih =>
    rw [List.append_cons]
    exact ih (g.after_addMethod message_namespace h node interface call)

theorem addInterface_proxies (node : Node I) (interface : I) (out : Output I) :
    ∃ proxy : Proxy I,
      (g.addInterface message_namespace node interface out).proxies = out.proxies ++ [proxy] ∧
      proxy.message = message_namespace ++ "::" ++ node.name ∧ proxy.interface = interface ∧
      proxy.Follows g := by
  have hstart : Output.After out.proxies
      { out with method_ordinal := 0, client := [], server := [] } [] :=
    ⟨rfl, rfl, rfl, rfl, rfl⟩
  have hend := g.after_calls message_namespace hstart node interface (g.calls interface)
  rw [List.nil_append, ← forEachMethod_eq_foldl] at hend
  refine ⟨_, congrArg (· ++ _) hend.proxies, rfl, rfl, ?_⟩
  exact ⟨hend.client, hend.server, hend.ordinals⟩

theorem methods_calls (node : Node I) (interface : I) (calls : List (I × MethodSchema))
    (out : Output I) :
    (calls.foldl (fun out call => g.addMethod message_namespace node interface call.1 call.2 out)
      out).methods = out.methods ++ calls.flatMap fun call =>
        g.proxyMethods message_namespace node interface call.1 call.2 := by
  induction calls generalizing out with
  | nil => exact (List.append_nil _).symm
  | cons call calls ih =>
    rw [List.foldl_cons, ih, List.flatMap_cons, ← List.append_assoc]
    rfl

/-- Specializations of `ProxyMethod` are written for the methods of the interface itself, once each
whatever it extends. -/
theorem addInterface_methods (node : Node I) (interface : I) (out : Output I) :
    (g.addInterface message_namespace node interface out).methods =
      out.methods ++ (g.methods interface).flatMap
        (g.proxyMethods message_namespace node interface interface) := by
  have hsupers : (((g.superclasses interface).flatMap g.calls).flatMap fun call =>
      g.proxyMethods message_namespace node interface call.1 call.2) = [] := by
    refine List.flatMap_eq_nil_iff.mpr fun call hcall => if_neg ?_
    simp only [beq_eq_false_iff_ne.mpr (g.ne_of_mem_superclasses hcall), Bool.and_false,
      Bool.false_eq_true, not_false_eq_true]
  unfold addInterface
  rw [forEachMethod_eq_foldl, methods_calls, calls_unfold, List.flatMap_append, hsupers,
    List.nil_append, own, List.flatMap_map]

/-- An accessor is written once, however often the methods that ask for it are visited. -/
theorem accessors_nodup (nodes : List (Node I)) :
    (g.generate message_namespace nodes).accessors.Nodup := by
  have hnode : ∀ out node, out.accessors.Nodup →
      (g.addNode message_namespace out node).accessors.Nodup := by
    intro out node h
    unfold addNode
    split
    · exact nodup_addAccessors h _ _
    · split
      · exact h
      · unfold addInterface
        rw [forEachMethod_eq_foldl]
        exact List.foldlRecOn (motive := fun out : Output I => out.accessors.Nodup) _ _ h
          fun out hout call _ => nodup_addAccessors hout _ _
    · exact h
  exact List.foldlRecOn (motive := fun out : Output I => out.accessors.Nodup) _ _ List.nodup_nil
    fun out hout node _ => hnode out node hout

theorem generated_addNode {out : Output I} {done : List (Node I)} (h : out.Generated g done)
    (node : Node I) : (g.addNode message_namespace out node).Generated g (done ++ [node]) := by
  unfold addNode
  split
  · next fields hschema => exact h.skip (by rw [Node.wrapped, hschema]) rfl
  · next interface hschema =>
    split
    · next hempty => exact h.skip (by simp only [Node.wrapped, hschema, if_pos hempty]) rfl
    · next hwrap =>
      obtain ⟨proxy, hproxies, -, rfl, hfollows⟩ :=
        g.addInterface_proxies message_namespace node interface out
      exact h.push (by simp only [Node.wrapped, hschema, if_neg hwrap]) hfollows hproxies
  · next hschema => exact h.skip (by rw [Node.wrapped, hschema]) rfl

/-- The nodes that are wrapped interfaces have their classes, in order. -/
theorem generated_generate (nodes : List (Node I)) :
    (g.generate message_namespace nodes).Generated g nodes := by
  induction nodes using List.reverseRecOn with
  | nil => exact ⟨rfl, fun _ h => absurd h List.not_mem_nil⟩
  | append_singleton nodes node ih =>
    rw [generate, List.foldl_append]
    exact g.generated_addNode message_namespace ih node

/-- Where two paths meet again, both classes have a method twice, and nowhere else. -/
theorem each_method_once_iff (nodes : List (Node I)) (proxy : Proxy I)
    (h : proxy ∈ (g.generate message_namespace nodes).proxies) :
    (g.EachOnce proxy.interface (g.calls proxy.interface) ∧
      g.EachOnce proxy.interface (proxy.client.map ClientMethod.call) ∧
      g.EachOnce proxy.interface (proxy.server.map ServerMethod.call)) ↔
      g.SinglePath proxy.interface := by
  have hfollows := (g.generated_generate message_namespace nodes).follows proxy h
  rw [hfollows.client, hfollows.server, and_self, and_self]
  exact g.eachOnce_calls_iff proxy.interface

end Interfaces

/-- The callbacks of the test schema. -/
inductive Callback where
  | fooCallback
  | extendedCallback
  deriving DecidableEq

instance : Fintype Callback where
  elems := {.fooCallback, .extendedCallback}
  complete callback := by cases callback <;> decide

/-- A `Proxy.Context`. -/
def contextField : SchemaField :=
  { plainField "context" with typeCount := some 0, boxed := true }

def callbacks : Interfaces Callback where
  shortDisplayName
    | .fooCallback => "FooCallback"
    | .extendedCallback => "ExtendedCallback"
  superclasses
    | .fooCallback => []
    | .extendedCallback => [.fooCallback]
  methods
    | .fooCallback => [⟨"destroy", none, [contextField], []⟩,
        ⟨"call", none, [contextField, plainField "arg"], [plainField "result"]⟩]
    | .extendedCallback =>
      [⟨"callExtended", none, [contextField, plainField "arg"], [plainField "result"]⟩]
  finite := inferInstance
  acyclic := Dag.acyclic_of_rank (fun | .fooCallback => 0 | .extendedCallback => 1) (by decide)
  names := by decide

def callbackNodes : List (Node Callback) :=
  [⟨"FooCallback", "mp::test::FooCallback", .interface .fooCallback⟩,
    ⟨"ExtendedCallback", "mp::test::ExtendedCallback", .interface .extendedCallback⟩]

/-- The classes of `ExtendedCallback` have each method once. -/
theorem extendedCallback_once :
    ∃ proxy ∈ (callbacks.generate "mp::test::messages" callbackNodes).proxies,
      proxy.interface = .extendedCallback ∧
      callbacks.EachOnce .extendedCallback (proxy.client.map ClientMethod.call) ∧
      callbacks.EachOnce .extendedCallback (proxy.server.map ServerMethod.call) := by
  have hinterfaces := (callbacks.generated_generate "mp::test::messages" callbackNodes).interfaces
  have hmem : Callback.extendedCallback ∈ callbackNodes.filterMap Node.wrapped := by decide
  rw [← hinterfaces] at hmem
  obtain ⟨proxy, hproxy, hinterface⟩ := List.mem_map.mp hmem
  have honce := (callbacks.each_method_once_iff "mp::test::messages" callbackNodes proxy hproxy).mpr
    (callbacks.singlePath_of_single (by decide) proxy.interface)
  rw [hinterface] at honce
  exact ⟨proxy, hproxy, hinterface, honce.2⟩

/-- Two interfaces that extend one, and one that extends both. -/
inductive Diamond where
  | base
  | left
  | right
  | bottom
  deriving DecidableEq

instance : Fintype Diamond where
  elems := {.base, .left, .right, .bottom}
  complete interface := by cases interface <;> decide

def baseMethod : MethodSchema where
  name := "call"
  proxied_name := none
  params := []
  results := []

def diamond : Interfaces Diamond where
  shortDisplayName
    | .base => "Base"
    | .left => "Left"
    | .right => "Right"
    | .bottom => "Bottom"
  superclasses
    | .base => []
    | .left | .right => [.base]
    | .bottom => [.left, .right]
  methods
    | .base => [baseMethod]
    | .left | .right | .bottom => []
  finite := inferInstance
  acyclic := Dag.acyclic_of_rank
    (fun | .base => 0 | .left | .right => 1 | .bottom => 2) (by decide)
  names := by decide

def diamondNodes : List (Node Diamond) := [⟨"Bottom", "Bottom", .interface .bottom⟩]

theorem calls_diamond :
    diamond.calls .bottom = [(.base, baseMethod), (.base, baseMethod)] := by
  have hbase : diamond.calls .base = [(.base, baseMethod)] := by
    rw [Interfaces.calls_unfold]
    rfl
  have hside : ∀ side, diamond.superclasses side = [.base] → diamond.own side = [] →
      diamond.calls side = [(.base, baseMethod)] := by
    intro side hsupers hown
    rw [Interfaces.calls_unfold, hsupers, hown, List.flatMap_singleton, hbase, List.append_nil]
  have hsupers : diamond.superclasses .bottom = [.left, .right] := rfl
  rw [Interfaces.calls_unfold, hsupers, List.flatMap_cons, List.flatMap_singleton,
    hside .left rfl rfl, hside .right rfl rfl]
  rfl

/-- The classes of the last one have the method of the first twice. -/
theorem diamond_twice :
    ∃ proxy ∈ (diamond.generate "messages" diamondNodes).proxies,
      proxy.interface = .bottom ∧
      proxy.client.map ClientMethod.call = [(.base, baseMethod), (.base, baseMethod)] ∧
      proxy.server.map ServerMethod.call = [(.base, baseMethod), (.base, baseMethod)] ∧
      ¬ diamond.EachOnce .bottom (diamond.calls .bottom) ∧
      ¬ diamond.EachOnce .bottom (proxy.client.map ClientMethod.call) ∧
      ¬ diamond.EachOnce .bottom (proxy.server.map ServerMethod.call) := by
  have hgenerated := diamond.generated_generate "messages" diamondNodes
  have hmem : Diamond.bottom ∈ diamondNodes.filterMap Node.wrapped := by decide
  rw [← hgenerated.interfaces] at hmem
  obtain ⟨proxy, hproxy, hinterface⟩ := List.mem_map.mp hmem
  obtain ⟨hclient, hserver, -⟩ := hgenerated.follows proxy hproxy
  rw [hinterface, calls_diamond] at hclient hserver
  have htwice : ¬ diamond.EachOnce .bottom [(.base, baseMethod), (.base, baseMethod)] :=
    fun h => (List.nodup_cons.mp h.once).1 (List.mem_singleton_self _)
  rw [calls_diamond]
  refine ⟨proxy, hproxy, hinterface, hclient, hserver, htwice, ?_, ?_⟩
  · rwa [hclient]
  · rwa [hserver]

end Multiprocess.Stub
