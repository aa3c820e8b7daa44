import Mathlib.Data.Prod.TProd
import Multiprocess.Stub.Exceptions

/-!
# A call through both stubs

The client goes through the fields of a method twice, first to build the request from its arguments
and later to read the results into them. The server's callables are nested: each reads its argument
from the request, invokes those inside it, and writes what they left in the argument to the results
(`src/include/mp/proxy-types.h`, `src/include/mp/type-pointer.h`).

`call_transparent` takes that the types of the method round-trip, and says for any such types what
the client's variables hold in the end. It says nothing of a call that is canceled or disconnected,
nor of the threads the two sides run on.
-/

namespace Multiprocess.Stub

variable {T W : Type} {V : T → Type}

/-- `BuildField` and `ReadField` of the C++ types `T`, with `W` for what a field holds. -/
structure FieldCodec (V : T → Type) (W : Type) where
  unset : W
  build (accessor : Accessor) (type : T) (value : V type) : W
  /-- `ReadField` to a `ReadDestEmplace` -/
  construct (accessor : Accessor) (type : T) (input : W) : V type
  /-- `ReadField` to a `ReadDestUpdate` -/
  update (accessor : Accessor) (type : T) (input : W) (value : V type) : V type
  /-- what `std::optional::emplace` makes of no arguments -/
  emplaced (type : T) : V type
  /-- a variable declared without a value -/
  declared (type : T) : V type

/-- What is built is read back, whatever it is read into. -/
structure FieldCodec.RoundTrips (codec : FieldCodec V W) (accessor : Accessor) (type : T) : Prop where
  construct : ∀ value, codec.construct accessor type (codec.build accessor type value) = value
  update : ∀ value old, codec.update accessor type (codec.build accessor type value) old = value

/-- A params or results struct, by the names of the fields. `want` has their companions. -/
structure Message (W : Type) where
  value : String → W
  want : String → Bool

namespace Message

def blank (unset : W) : Message W where
  value _ := unset
  want _ := false

def set (m : Message W) (field : Field) (value : W) : Message W :=
  { m with value := Function.update m.value field.name value }

/-- `StructField::setWant`. -/
def setWant (m : Message W) (field : Field) : Message W :=
  if field.accessor.requested then { m with want := Function.update m.want field.name true } else m

/-- `StructField::want`. -/
def wants (m : Message W) (field : Field) : Bool :=
  if field.accessor.requested then m.want field.name else true

end Message

/-- A C++ parameter and its field: passed by value or const reference, by reference, or by
pointer. -/
inductive Param (T : Type) where
  | value (field : Field) (type : T)
  | reference (field : Field) (type : T)
  | pointer (field : Field) (type : T)

namespace Param

def field : Param T → Field
  | value field _ | reference field _ | pointer field _ => field

def type : Param T → T
  | value _ type | reference _ type | pointer _ type => type

/-- The parameter takes one argument, and the directions of its field are those of the way it is
passed. -/
structure Fits (p : Param T) : Prop where
  kind : p.field.kind = .param
  args : p.field.args = 1
  passed : match p with
    | value field _ => field.accessor.inp = true ∧ field.accessor.out = false
    | reference field _ => field.accessor.out = true
    | pointer field _ => field.accessor.requested = true

/-- What the method is passed on the server. -/
abbrev Arg (V : T → Type) : Param T → Type
  | value _ type | reference _ type => V type
  | pointer _ type => Option (V type)

/-- What the method leaves in the variable of the argument; nothing looks at it for a null
pointer. -/
abbrev Final (V : T → Type) (p : Param T) : Type := V p.type

/-- Which variable of its type the client passes. -/
abbrev Target : Param T → Type
  | value _ _ | reference _ _ => Nat
  | pointer _ _ => Option Nat

end Param

/-- The client's variables. -/
abbrev Memory (V : T → Type) := (location : T × Nat) → V location.1

/-! ## The client -/

section Client

variable (codec : FieldCodec V W)

/-- `ClientParam::BuildParams`, with `MaybeSetWant` and the `CustomBuildField` of pointers. -/
def Param.buildParams (mem : Memory V) : (p : Param T) → p.Target → Message W → Message W
  | .value field type, n, params | .reference field type, n, params =>
    if field.accessor.inp then
      params.set field (codec.build field.accessor type (mem (type, n))) else params
  | .pointer _ _, none, params => params
  | .pointer field type, some n, params =>
    if field.accessor.inp then
      (params.setWant field).set field (codec.build field.accessor type (mem (type, n)))
    else params.setWant field

/-- `ClientParam::ReadResults`. -/
def Param.readResults [DecidableEq T] (results : Message W) : (p : Param T) → p.Target → Memory V → Memory V
  | .value field type, n, mem | .reference field type, n, mem | .pointer field type, some n, mem =>
    if field.accessor.out then
      Function.update mem (type, n)
        (codec.update field.accessor type (results.value field.name) (mem (type, n))) else mem
  | .pointer _ _, none, mem => mem

/-- `IterateFields` over the `BuildParams`. -/
def buildParams (mem : Memory V) :
    (ps : List (Param T)) → List.TProd Param.Target ps → Message W → Message W
  | [], _, params => params
  | p :: ps, targets, params =>
    buildParams mem ps targets.2 (p.buildParams codec mem targets.1 params)

/-- Over the `ReadResults`. -/
def readParams [DecidableEq T] (results : Message W) :
    (ps : List (Param T)) → List.TProd Param.Target ps → Memory V → Memory V
  | [], _, mem => mem
  | p :: ps, targets, mem =>
    readParams results ps targets.2 (p.readResults codec results targets.1 mem)

end Client

/-! ## The server -/

section Server

variable (codec : FieldCodec V W)

/-- `PassField` before it invokes the callable. -/
def Param.receive (params : Message W) : (p : Param T) → p.Arg V
  | .value field type | .reference field type =>
    if field.accessor.inp then codec.construct field.accessor type (params.value field.name)
    else codec.emplaced type
  | .pointer field type =>
    if params.wants field then
      if field.accessor.inp then
        some (codec.update field.accessor type (params.value field.name) (codec.declared type))
      else some (codec.declared type)
    else none

/-- After it has returned. -/
def Param.respond : (p : Param T) → p.Arg V → p.Final V → Message W → Message W
  | .value field type, _, final, results | .reference field type, _, final, results
  | .pointer field type, some _, final, results =>
    if field.accessor.out then results.set field (codec.build field.accessor type final) else results
  | .pointer _ _, none, _, results => results

/-- The results struct, and the arguments of each call of the method. -/
structure Run (W A : Type) where
  results : Message W
  calls : List A

/-- `ServerField::invoke` of nested fields around a callable. `E` is what the callable leaves in the
variables of the fields outside these. -/
def serveParams {A : Type} (params : Message W) : (ps : List (Param T)) → {E : Type} →
    (List.TProd (Param.Arg V) ps → Run W A → (Run W A × E) × List.TProd (Param.Final V) ps) →
    Run W A → Run W A × E
  | [], _, fn, run => (fn ⟨⟩ run).1
  | p :: ps, _, fn, run =>
    let arg := p.receive codec params
    let (run, outer, final) := serveParams params ps (fun args run =>
      let ((run, outer), finals) := fn (arg, args) run
      ((run, outer, finals.1), finals.2)) run
    ({ run with results := p.respond codec arg final run.results }, outer)

end Server

/-! ## Methods -/

/-- The client's request of a method with these parameters; its variable `result` has a field object
too. -/
def clientRequest (codec : FieldCodec V W) (mem : Memory V) (ps : List (Param T))
    (targets : List.TProd Param.Target ps) (result : Option (Field × T)) : Message W :=
  let params := buildParams codec mem ps targets (.blank codec.unset)
  match result with
  | some (field, type) =>
    if field.accessor.inp then
      params.set field (codec.build field.accessor type (codec.declared type)) else params
  | none => params

/-- A method: its params and results, and the C++ parameters and return value its fields are for. -/
structure Method (T : Type) where
  params : List SchemaField
  results : List SchemaField
  parameters : List (Param T)
  result : Option (Field × T)
  fields : (emit 0 (.ofMethod params results)).map Piece.field =
    parameters.map Param.field ++ (result.map Prod.fst).toList
  fits : ∀ p ∈ parameters, p.Fits
  retval : ∀ r ∈ result, r.1.kind = .retval

namespace Method

variable (method : Method T)

abbrev Args (V : T → Type) : Type := List.TProd (Param.Arg V) method.parameters

abbrev Finals (V : T → Type) : Type := List.TProd (Param.Final V) method.parameters

abbrev Targets : Type := List.TProd Param.Target method.parameters

/-- `Result`. -/
abbrev Ret (V : T → Type) : Type := ∀ r ∈ method.result, V r.2

variable (codec : FieldCodec V W)

/-- The client's request. -/
def request (mem : Memory V) (targets : method.Targets) : Message W :=
  clientRequest codec mem method.parameters targets method.result

/-- `ServerRet::invoke` of a `ServerCall`. -/
def serverCall (impl : method.Args V → method.Ret V × method.Finals V) (args : method.Args V)
    (run : Run W (method.Args V)) : (Run W (method.Args V) × Unit) × method.Finals V :=
  let (ret, finals) := impl args
  let calls := run.calls ++ [args]
  match h : method.result with
  | some (field, type) =>
    let value := codec.build field.accessor type (ret (field, type) h)
    ((⟨run.results.set field value, calls⟩, ()), finals)
  | none => ((⟨run.results, calls⟩, ()), finals)

/-- `serverInvoke`. -/
def serve (impl : method.Args V → method.Ret V × method.Finals V) (params : Message W) :
    Run W (method.Args V) :=
  (serveParams codec params method.parameters (method.serverCall codec impl)
    ⟨.blank codec.unset, []⟩).1

/-- How a call ends that is neither canceled nor disconnected. -/
structure Outcome (V : T → Type) where
  calls : List (method.Args V)
  ret : method.Ret V
  mem : Memory V

/-- `clientInvoke`. -/
def call [DecidableEq T] (impl : method.Args V → method.Ret V × method.Finals V)
    (mem : Memory V) (targets : method.Targets) : method.Outcome V :=
  let run := method.serve codec impl (method.request codec mem targets)
  { calls := run.calls
    mem := readParams codec run.results method.parameters targets mem
    ret := fun (field, type) _ =>
      if field.accessor.out then
        codec.update field.accessor type (run.results.value field.name) (codec.declared type)
      else codec.declared type }

end Method

/-! ## Transparent calls -/

section Spec

variable (codec : FieldCodec V W)

/-- The variable the client passes; `none` for a null pointer. -/
def Param.location : (p : Param T) → p.Target → Option Nat
  | .value _ _, n | .reference _ _, n => some n
  | .pointer _ _, target => target

/-- What the method should receive: the client's value, a null pointer where the client passed one,
and a new object where the field is not an input. -/
def Param.sent (mem : Memory V) : (p : Param T) → p.Target → p.Arg V
  | .value _ type, n => mem (type, n)
  | .reference field type, n => if field.accessor.inp then mem (type, n) else codec.emplaced type
  | .pointer field type, target =>
    target.map fun n => if field.accessor.inp then mem (type, n) else codec.declared type

def sent (mem : Memory V) :
    (ps : List (Param T)) → List.TProd Param.Target ps → List.TProd (Param.Arg V) ps
  | [], _ => ⟨⟩
  | p :: ps, targets => (p.sent codec mem targets.1, sent mem ps targets.2)

variable [DecidableEq T]

/-- What the client's variables are given by the parameter. -/
def Param.output (p : Param T) (target : p.Target) (final : p.Final V) :
    (location : T × Nat) → Option (V location.1) :=
  match p.location target with
  | some n =>
    if p.field.accessor.out then Function.update (fun _ => none) (p.type, n) (some final)
    else fun _ => none
  | none => fun _ => none

/-- By all of them: the last output that is the variable counts, and `none` is a variable that is
no output. -/
def outputs : (ps : List (Param T)) → List.TProd Param.Target ps → List.TProd (Param.Final V) ps →
    (location : T × Nat) → Option (V location.1)
  | [], _, _, _ => none
  | p :: ps, targets, finals, location =>
    (outputs ps targets.2 finals.2 location).or (p.output targets.1 finals.1 location)

/-- The method is called once, with what the client passed; the client gets its return value; each
output variable gets what the method left in it; and every other variable stays as it was. -/
structure Transparent (method : Method T) (impl : method.Args V → method.Ret V × method.Finals V)
    (mem : Memory V) (targets : method.Targets) (outcome : method.Outcome V) : Prop where
  once : outcome.calls = [sent codec mem method.parameters targets]
  ret : outcome.ret = (impl (sent codec mem method.parameters targets)).1
  written : ∀ location value,
    outputs method.parameters targets (impl (sent codec mem method.parameters targets)).2 location =
      some value → outcome.mem location = value
  unchanged : ∀ location,
    outputs method.parameters targets (impl (sent codec mem method.parameters targets)).2 location =
      none → outcome.mem location = mem location

end Spec

/-! ## The request -/

section Request

variable {codec : FieldCodec V W} {mem : Memory V} {name : String}

/-- The field of the name is the same in both. -/
def Message.SameAt (name : String) (m m' : Message W) : Prop :=
  m.value name = m'.value name ∧ m.want name = m'.want name

/-- A message does not differ from itself. -/
theorem Message.SameAt.refl (m : Message W) : m.SameAt name m := ⟨rfl, rfl⟩

/-- Messages that do not differ from one. -/
theorem Message.SameAt.trans {m₁ m₂ m₃ : Message W} (h : SameAt name m₁ m₂)
    (h' : SameAt name m₂ m₃) : SameAt name m₁ m₃ :=
  ⟨h.1.trans h'.1, h.2.trans h'.2⟩

/-- Setting a field leaves the others alone. -/
theorem Message.set_other (m : Message W) {field : Field} (value : W) (h : name ≠ field.name) :
    (m.set field value).SameAt name m :=
  ⟨Function.update_of_ne h _ _, rfl⟩

/-- So does its want companion. -/
theorem Message.setWant_other (m : Message W) {field : Field} (h : name ≠ field.name) :
    (m.setWant field).SameAt name m := by
  unfold Message.setWant
  split
  · exact ⟨rfl, Function.update_of_ne h _ _⟩
  · exact .refl m

/-- Building one parameter does not touch another's field. -/
theorem Param.buildParams_other (p : Param T) (target : p.Target) (params : Message W)
    (h : name ≠ p.field.name) : (p.buildParams codec mem target params).SameAt name params := by
  cases p with
  | value field type | reference field type =>
    simp only [Param.buildParams]
    split
    · exact Message.set_other params _ h
    · exact .refl params
  | pointer field type =>
    cases target with
    | none => exact .refl params
    | some n =>
      have hwant := Message.setWant_other params h
      simp only [Param.buildParams]
      split
      · exact (Message.set_other _ _ h).trans hwant
      · exact hwant

/-- Building all of them touches no field but theirs. -/
theorem buildParams_other (ps : List (Param T)) (targets : List.TProd Param.Target ps)
    (params : Message W) (h : name ∉ ps.map (·.field.name)) :
    (buildParams codec mem ps targets params).SameAt name params := by
  induction ps generalizing params with
  | nil => exact .refl params
  | cons p ps ih =>
    rw [List.map_cons, List.mem_cons, not_or] at h
    exact (ih targets.2 _ h.2).trans (p.buildParams_other targets.1 params h.1)

/-- What the server reads of a parameter depends on its field. -/
theorem Param.receive_congr (p : Param T) {m m' : Message W} (h : m.SameAt p.field.name m') :
    p.receive codec m = p.receive codec m' := by
  cases p with
  | value field type | reference field type =>
    have hvalue : m.value field.name = m'.value field.name := h.1
    simp only [Param.receive, hvalue]
  | pointer field type =>
    have hvalue : m.value field.name = m'.value field.name := h.1
    have hwant : m.want field.name = m'.want field.name := h.2
    have hwants : m.wants field = m'.wants field := by simp only [Message.wants, hwant]
    simp only [Param.receive, hvalue, hwants]

/-- So does all that it reads. -/
theorem receive_congr {ps : List (Param T)} {m m' : Message W}
    (same : ∀ p ∈ ps, m.SameAt p.field.name m') :
    List.TProd.mk ps (fun p => p.receive codec m) =
      List.TProd.mk ps (fun p => p.receive codec m') := by
  induction ps with
  | nil => rfl
  | cons p ps ih =>
    have hhead : p.receive codec m = p.receive codec m' :=
      p.receive_congr (same p List.mem_cons_self)
    exact Prod.ext hhead (ih fun q hq => same q (List.mem_cons_of_mem p hq))

/-- The server reads what the client built, if the field was not wanted before. -/
theorem Param.receive_build {p : Param T} (fits : p.Fits)
    (hcodec : codec.RoundTrips p.field.accessor p.type) (target : p.Target) {params : Message W}
    (hwant : params.want p.field.name = false) :
    p.receive codec (p.buildParams codec mem target params) = p.sent codec mem target := by
  cases p with
  | value field type =>
    have hin : field.accessor.inp = true := fits.passed.1
    simp only [Param.buildParams, Param.receive, Param.sent, hin, if_true, Message.set,
      Function.update_self]
    exact hcodec.construct _
  | reference field type =>
    cases hin : field.accessor.inp with
    | true =>
      simp only [Param.buildParams, Param.receive, Param.sent, hin, if_true, Message.set,
        Function.update_self]
      exact hcodec.construct _
    | false => simp only [Param.receive, Param.sent, hin, Bool.false_eq_true, if_false]
  | pointer field type =>
    have hreq : field.accessor.requested = true := fits.passed
    cases target with
    | none =>
      have hwant : params.want field.name = false := hwant
      simp only [Param.buildParams, Param.receive, Param.sent, Message.wants, hreq, if_true, hwant,
        Bool.false_eq_true, if_false, Option.map_none]
    | some n =>
      cases hin : field.accessor.inp with
      | true =>
        simp only [Param.buildParams, Param.receive, Param.sent, Message.wants, Message.setWant,
          Message.set, hreq, hin, if_true, Function.update_self, Option.map_some]
        exact congrArg some (hcodec.update _ _)
      | false =>
        simp only [Param.buildParams, Param.receive, Param.sent, Message.wants, Message.setWant,
          hreq, hin, if_true, Function.update_self, Option.map_some, Bool.false_eq_true, if_false]

/-- The server reads what the client sent. -/
theorem receive_buildParams {ps : List (Param T)} (fits : ∀ p ∈ ps, p.Fits)
    (hcodec : ∀ p ∈ ps, codec.RoundTrips p.field.accessor p.type)
    (nodup : (ps.map (·.field.name)).Nodup) (targets : List.TProd Param.Target ps)
    (params : Message W) (hwant : ∀ p ∈ ps, params.want p.field.name = false) :
    List.TProd.mk ps (fun p => p.receive codec (buildParams codec mem ps targets params)) =
      sent codec mem ps targets := by
  induction ps generalizing params with
  | nil => rfl
  | cons p ps ih =>
    obtain ⟨hnot, hrest⟩ := List.nodup_cons.mp nodup
    have hhead : p.receive codec (buildParams codec mem (p :: ps) targets params) =
        p.sent codec mem targets.1 := by
      have hbuilt : p.receive codec (p.buildParams codec mem targets.1 params) =
          p.sent codec mem targets.1 :=
        Param.receive_build (fits p List.mem_cons_self) (hcodec p List.mem_cons_self) targets.1
          (hwant p List.mem_cons_self)
      exact (p.receive_congr (buildParams_other ps targets.2 _ hnot)).trans hbuilt
    have hwanted : ∀ q ∈ ps, (p.buildParams codec mem targets.1 params).want q.field.name = false := by
      intro q hq
      have hne : q.field.name ≠ p.field.name :=
        fun he => hnot (List.mem_map.mpr ⟨q, hq, he⟩)
      rw [(p.buildParams_other targets.1 params hne).2]
      exact hwant q (List.mem_cons_of_mem p hq)
    have htail := ih (fun q hq => fits q (List.mem_cons_of_mem p hq))
      (fun q hq => hcodec q (List.mem_cons_of_mem p hq)) hrest targets.2 _ hwanted
    exact Prod.ext hhead htail

end Request

/-! ## The results -/

section Results

variable {codec : FieldCodec V W} {name : String}

/-- What the callables write after the method has returned, the innermost first. -/
def respondParams (codec : FieldCodec V W) : (ps : List (Param T)) →
    List.TProd (Param.Arg V) ps → List.TProd (Param.Final V) ps → Message W → Message W
  | [], _, _, results => results
  | p :: ps, args, finals, results =>
    p.respond codec args.1 finals.1 (respondParams codec ps args.2 finals.2 results)

/-- The nest of callables reads every argument, invokes its callable once, and writes every field. -/
theorem serveParams_eq {A : Type} (params : Message W) (ps : List (Param T)) {E : Type}
    (fn : List.TProd (Param.Arg V) ps → Run W A → (Run W A × E) × List.TProd (Param.Final V) ps)
    (run : Run W A) :
    serveParams codec params ps fn run =
      let args := List.TProd.mk ps fun p => p.receive codec params
      let ((run, outer), finals) := fn args run
      ({ run with results := respondParams codec ps args finals run.results }, outer) := by
  induction ps generalizing E with
  | nil => rfl
  | cons p ps ih =>
    unfold serveParams
    simp only [ih]
    rfl

/-- The answer of one parameter does not touch another's field. -/
theorem Param.respond_other (p : Param T) (arg : p.Arg V) (final : p.Final V) (results : Message W)
    (h : name ≠ p.field.name) : (p.respond codec arg final results).SameAt name results := by
  have hset : ∀ value, (if p.field.accessor.out then results.set p.field value else results).SameAt
      name results := by
    intro value
    split
    · exact Message.set_other results value h
    · exact .refl results
  cases p with
  | value field type | reference field type => exact hset _
  | pointer field type =>
    cases arg with
    | none => exact .refl results
    | some value => exact hset _

/-- The answers touch no field but theirs. -/
theorem respondParams_other (ps : List (Param T)) (args : List.TProd (Param.Arg V) ps)
    (finals : List.TProd (Param.Final V) ps) (results : Message W)
    (h : name ∉ ps.map (·.field.name)) :
    (respondParams codec ps args finals results).SameAt name results := by
  induction ps with
  | nil => exact .refl results
  | cons p ps ih =>
    rw [List.map_cons, List.mem_cons, not_or] at h
    exact (p.respond_other args.1 finals.1 _ h.1).trans (ih args.2 finals.2 h.2)

/-- The results have the final value of the parameter, if the client is to read one. -/
def Param.Answered (codec : FieldCodec V W) (p : Param T) (target : p.Target) (final : p.Final V)
    (results : Message W) : Prop :=
  p.field.accessor.out = true → (p.location target).isSome = true →
    results.value p.field.name = codec.build p.field.accessor p.type final

def Answered (codec : FieldCodec V W) (results : Message W) : (ps : List (Param T)) →
    List.TProd Param.Target ps → List.TProd (Param.Final V) ps → Prop
  | [], _, _ => True
  | p :: ps, targets, finals =>
    p.Answered codec targets.1 finals.1 results ∧ Answered codec results ps targets.2 finals.2

/-- Being answered depends on the parameters' fields. -/
theorem Answered.congr {ps : List (Param T)} {targets : List.TProd Param.Target ps}
    {finals : List.TProd (Param.Final V) ps} {results results' : Message W}
    (h : Answered codec results ps targets finals)
    (same : ∀ p ∈ ps, results'.SameAt p.field.name results) :
    Answered codec results' ps targets finals := by
  induction ps with
  | nil => trivial
  | cons p ps ih =>
    constructor
    · intro hout hloc
      exact (same p List.mem_cons_self).1.trans (h.1 hout hloc)
    · exact ih h.2 fun q hq => same q (List.mem_cons_of_mem p hq)

/-- An output that was asked for is answered with its final value. -/
theorem Param.respond_sent {mem : Memory V} (p : Param T) {target : p.Target}
    (final : p.Final V) (results : Message W) (h : (p.location target).isSome = true) :
    p.respond codec (p.sent codec mem target) final results =
      if p.field.accessor.out then
        results.set p.field (codec.build p.field.accessor p.type final) else results := by
  cases p with
  | value field type | reference field type => rfl
  | pointer field type =>
    cases target with
    | none => cases h
    | some n => rfl

/-- Every parameter is answered. -/
theorem Param.respond_answered {mem : Memory V} (p : Param T) (target : p.Target)
    (final : p.Final V) (results : Message W) :
    p.Answered codec target final (p.respond codec (p.sent codec mem target) final results) := by
  intro hout hloc
  rw [p.respond_sent final results hloc, if_pos hout]
  exact Function.update_self _ _ _

/-- All of them are. -/
theorem respondParams_answered {mem : Memory V} (ps : List (Param T))
    (nodup : (ps.map (·.field.name)).Nodup) (targets : List.TProd Param.Target ps)
    (finals : List.TProd (Param.Final V) ps) (results : Message W) :
    Answered codec (respondParams codec ps (sent codec mem ps targets) finals results) ps targets
      finals := by
  induction ps with
  | nil => trivial
  | cons p ps ih =>
    obtain ⟨hnot, hrest⟩ := List.nodup_cons.mp nodup
    constructor
    · exact p.respond_answered targets.1 finals.1 _
    · apply (ih hrest targets.2 finals.2).congr
      intro q hq
      exact p.respond_other _ _ _ fun he => hnot (List.mem_map.mpr ⟨q, hq, he⟩)

variable [DecidableEq T]

/-- The client stores what was answered, if it asked for it. -/
theorem Param.readResults_eq {p : Param T}
    (hcodec : codec.RoundTrips p.field.accessor p.type) {target : p.Target} {final : p.Final V}
    {results : Message W} (h : p.Answered codec target final results) (mem : Memory V)
    (location : T × Nat) :
    p.readResults codec results target mem location =
      (p.output target final location).getD (mem location) := by
  cases hloc : p.location target with
  | none =>
    cases p with
    | value field type | reference field type => cases hloc
    | pointer field type =>
      obtain rfl : target = none := hloc
      rfl
  | some n =>
    have hread : p.readResults codec results target mem =
        if p.field.accessor.out then Function.update mem (p.type, n)
          (codec.update p.field.accessor p.type (results.value p.field.name) (mem (p.type, n)))
        else mem := by
      cases p with
      | value field type | reference field type =>
        obtain rfl : target = n := Option.some.inj hloc
        rfl
      | pointer field type =>
        obtain rfl : target = some n := hloc
        rfl
    rw [hread]
    simp only [Param.output, hloc]
    cases hout : p.field.accessor.out with
    | false => rfl
    | true =>
      rw [if_pos rfl, if_pos rfl, h hout (by rw [hloc]; rfl), hcodec.update]
      by_cases heq : location = (p.type, n)
      · subst heq
        simp only [Function.update_self, Option.getD_some]
      · simp only [Function.update_of_ne heq, Option.getD_none]

/-- The client's variables are given what the method left in its outputs, and no others are
changed. -/
theorem readParams_eq {ps : List (Param T)}
    (hcodec : ∀ p ∈ ps, codec.RoundTrips p.field.accessor p.type)
    {targets : List.TProd Param.Target ps} {finals : List.TProd (Param.Final V) ps}
    {results : Message W} (h : Answered codec results ps targets finals) (mem : Memory V)
    (location : T × Nat) :
    readParams codec results ps targets mem location =
      (outputs ps targets finals location).getD (mem location) := by
  induction ps generalizing mem with
  | nil => rfl
  | cons p ps ih =>
    have hhead := Param.readResults_eq (hcodec p List.mem_cons_self) h.1 mem location
    have htail := ih (fun q hq => hcodec q (List.mem_cons_of_mem p hq)) h.2
      (p.readResults codec results targets.1 mem)
    rw [hhead] at htail
    refine htail.trans ?_
    simp only [outputs]
    cases outputs ps targets.2 finals.2 location with
    | none => rfl
    | some value => rfl

end Results

/-! ## The whole call -/

section Call

/-! ## The fields of a method -/

section Fields

variable {params results : List SchemaField} {result : Option (Field × T)} {r : Field × T}

/-- No two fields of a method have one name. -/
theorem fields_nodup (params results : List SchemaField) :
    (((emit 0 (.ofMethod params results)).map Piece.field).map Field.name).Nodup :=
  (named_ofMethod params results).nodup.sublist
    ((emit_fields 0 (.ofMethod params results)).map Field.name)

/-- The field of a return value comes after the others, with a name of its own. -/
theorem result_name_notMem {front : List Field}
    (nodup : ((front ++ (result.map Prod.fst).toList).map Field.name).Nodup) (h : r ∈ result) :
    r.1.name ∉ front.map Field.name := by
  rw [h, List.map_append] at nodup
  intro hmem
  exact (List.nodup_append.mp nodup).2.2 _ hmem _ List.mem_cons_self rfl

/-- The field of a return value is written by the server and read by the client. -/
theorem out_of_retval {field : Field}
    (h : field ∈ (emit 0 (.ofMethod params results)).map Piece.field)
    (hkind : field.kind = .retval) : field.accessor.out = true := by
  apply retval_out params results
  · exact (emit_fields 0 (.ofMethod params results)).mem h
  · unfold Field.kind at hkind
    cases hr : field.retval with
    | true => rfl
    | false =>
      rw [hr] at hkind
      split at hkind <;> cases hkind

/-- The server reads what the client passed: the field object of `result` is no parameter's. -/
theorem receive_clientRequest {codec : FieldCodec V W} {ps : List (Param T)}
    (fits : ∀ p ∈ ps, p.Fits) (hcodec : ∀ p ∈ ps, codec.RoundTrips p.field.accessor p.type)
    (nodup : (ps.map (·.field.name)).Nodup)
    (other : ∀ r ∈ result, r.1.name ∉ ps.map (·.field.name)) (mem : Memory V)
    (targets : List.TProd Param.Target ps) :
    List.TProd.mk ps (fun p => p.receive codec (clientRequest codec mem ps targets result)) =
      sent codec mem ps targets := by
  have hsame : ∀ p ∈ ps, (clientRequest codec mem ps targets result).SameAt p.field.name
      (buildParams codec mem ps targets (.blank codec.unset)) := by
    intro p hp
    unfold clientRequest
    simp only
    split
    · next field type =>
      have hne : p.field.name ≠ field.name := by
        intro he
        exact other (field, type) rfl (List.mem_map.mpr ⟨p, hp, he⟩)
      split
      · exact Message.set_other _ _ hne
      · exact .refl _
    · exact .refl _
  rw [← receive_buildParams fits hcodec nodup targets (.blank codec.unset) fun _ _ => rfl]
  exact receive_congr hsame

end Fields

variable {codec : FieldCodec V W} {method : Method T}

namespace Method

/-- The parameters of a method have different names, -/
theorem params_nodup (method : Method T) : (method.parameters.map (·.field.name)).Nodup := by
  have h := fields_nodup method.params method.results
  rw [method.fields, List.map_append, List.map_map] at h
  exact (List.nodup_append.mp h).1

/-- and its return value has another. -/
theorem result_name {r : Field × T} (h : r ∈ method.result) :
    r.1.name ∉ method.parameters.map (·.field.name) := by
  have hnodup := fields_nodup method.params method.results
  rw [method.fields] at hnodup
  have hnot := result_name_notMem hnodup h
  rwa [List.map_map] at hnot

theorem result_out {r : Field × T} (h : r ∈ method.result) : r.1.accessor.out = true := by
  refine @out_of_retval method.params method.results r.1 ?_ (method.retval r h)
  rw [method.fields, h]
  exact List.mem_append_right _ List.mem_cons_self

/-- The server reads what the client passed. -/
theorem receive_request (hcodec : ∀ p ∈ method.parameters, codec.RoundTrips p.field.accessor p.type)
    (mem : Memory V) (targets : method.Targets) :
    List.TProd.mk method.parameters (fun p => p.receive codec (method.request codec mem targets)) =
      sent codec mem method.parameters targets :=
  receive_clientRequest method.fits hcodec method.params_nodup (fun _ h => result_name h) mem targets

variable {impl : method.Args V → method.Ret V × method.Finals V} {args : method.Args V}
  {run : Run W (method.Args V)}

/-- The method is called once, -/
theorem serverCall_calls :
    (method.serverCall codec impl args run).1.1.calls = run.calls ++ [args] := by
  unfold serverCall
  simp only
  split <;> rfl

/-- leaves its arguments as it does, -/
theorem serverCall_finals : (method.serverCall codec impl args run).2 = (impl args).2 := by
  unfold serverCall
  simp only
  split <;> rfl

/-- and its return value is built. -/
theorem serverCall_result {r : Field × T} (h : r ∈ method.result) :
    (method.serverCall codec impl args run).1.1.results.value r.1.name =
      codec.build r.1.accessor r.2 ((impl args).1 r h) := by
  unfold serverCall
  simp only
  split
  · next field type hr =>
    obtain rfl : r = (field, type) := Option.some.inj (h.symm.trans hr)
    exact Function.update_self _ _ _
  · next hr => cases h.symm.trans hr

/-- What the server makes of the client's request. -/
theorem serve_request (hcodec : ∀ p ∈ method.parameters, codec.RoundTrips p.field.accessor p.type)
    (impl : method.Args V → method.Ret V × method.Finals V) (mem : Memory V)
    (targets : method.Targets) :
    method.serve codec impl (method.request codec mem targets) =
      let args := sent codec mem method.parameters targets
      let run := (method.serverCall codec impl args ⟨.blank codec.unset, []⟩).1.1
      { run with
        results := respondParams codec method.parameters args (impl args).2 run.results } := by
  unfold serve
  rw [serveParams_eq, receive_request hcodec]
  simp only [serverCall_finals]

/-- A call of any method is transparent, if the types of its parameters and of its return value
round-trip. -/
theorem call_transparent [DecidableEq T] (method : Method T) (codec : FieldCodec V W)
    (params : ∀ p ∈ method.parameters, codec.RoundTrips p.field.accessor p.type)
    (result : ∀ r ∈ method.result, codec.RoundTrips r.1.accessor r.2)
    (impl : method.Args V → method.Ret V × method.Finals V) (mem : Memory V)
    (targets : method.Targets) :
    Transparent codec method impl mem targets (method.call codec impl mem targets) := by
  have hserve := serve_request params impl mem targets
  have hmem : ∀ location, (method.call codec impl mem targets).mem location =
      (outputs method.parameters targets (impl (sent codec mem method.parameters targets)).2
        location).getD (mem location) := by
    intro location
    unfold call
    simp only [hserve]
    apply readParams_eq params
    exact respondParams_answered method.parameters method.params_nodup targets _ _
  constructor
  · unfold call
    simp only [hserve, serverCall_calls, List.nil_append]
  · funext r hr
    have hslot : (method.serve codec impl (method.request codec mem targets)).results.value r.1.name =
        codec.build r.1.accessor r.2 ((impl (sent codec mem method.parameters targets)).1 r hr) := by
      rw [hserve]
      exact (respondParams_other _ _ _ _ (result_name hr)).1.trans (serverCall_result hr)
    unfold call
    simp only [hslot, result_out hr, if_true]
    exact (result r hr).update _ _
  · intro location value h
    rw [hmem, h, Option.getD_some]
  · intro location h
    rw [hmem, h, Option.getD_none]

end Method

end Call

/-- One C++ type, `int`, whose fields hold what was built. -/
def intCodec : FieldCodec (fun _ : Unit => Int) (Option Int) where
  unset := none
  build _ _ value := some value
  construct _ _ input := input.getD 0
  update _ _ input value := input.getD value
  emplaced _ := 0
  declared _ := 0

def plain (name : String) (param result : Option SchemaField) (args : Int) : Field :=
  { Field.empty name with param, result, args }

/-- `int divide(int value, int& by, int* remainder)`, where `by` is read and written. -/
def divide : Method Unit where
  params := [plainField "value", plainField "by", plainField "wantRemainder"]
  results := [plainField "by", plainField "remainder", plainField "result"]
  parameters := [.value (plain "value" (plainField "value") none 1) (),
    .reference (plain "by" (plainField "by") (plainField "by") 1) (),
    .pointer { plain "remainder" none (plainField "remainder") 1 with requested := true } ()]
  result := some ({ plain "result" none (plainField "result") 0 with retval := true }, ())
  fields := by decide
  fits p hp := by
    simp only [List.mem_cons, List.not_mem_nil, or_false] at hp
    rcases hp with rfl | rfl | rfl
    · exact ⟨by decide, by decide, by decide⟩
    · exact ⟨by decide, by decide, by decide⟩
    · exact ⟨by decide, by decide, by decide⟩
  retval r hr := by
    obtain rfl := Option.some.inj hr
    decide

/-- The quotient is returned, the remainder goes to the pointer, and `by` is cleared. -/
def divideImpl (args : divide.Args fun _ => Int) : divide.Ret (fun _ => Int) × divide.Finals fun _ => Int :=
  let (value, by_, _, _) := args
  (fun _ _ => value / by_, value, 0, value % by_, ⟨⟩)

/-- 17 by 5 with no interest in the remainder. -/
theorem divide_transparent :
    let mem : Memory fun _ : Unit => Int := fun (_, n) => if n = 0 then 17 else 5
    Transparent intCodec divide divideImpl mem (0, 1, none, ⟨⟩)
      (divide.call intCodec divideImpl mem (0, 1, none, ⟨⟩)) :=
  Method.call_transparent divide intCodec (fun _ _ => ⟨fun _ => rfl, fun _ _ => rfl⟩)
    (fun _ _ => ⟨fun _ => rfl, fun _ _ => rfl⟩) divideImpl _ _

end Multiprocess.Stub
