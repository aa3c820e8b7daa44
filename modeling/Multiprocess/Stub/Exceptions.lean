import Multiprocess.Stub.Slices

/-!
# Declared exceptions

What becomes of an exception of a method with `$Proxy.exception` fields: on the server the
`ServerExcept` callables, each around those of the fields after it, write the field of the type that
catches it; on the client the field objects read the results one after the other, and
`ClientException` throws where its field is present (`src/include/mp/proxy-types.h`).

A `ServerExcept` also catches what the encoders of the results inside it throw, and the `PassField`
of a `Proxy.Context` catches every `InterruptException` (`src/include/mp/type-context.h`), so that
what leaves the callables need not be what the method threw. `raised` and `stop` follow this from
the method's outcome and from what the encoders and readers throw, without a results struct;
`reply_raised` and `reply_read` say that the call ends accordingly, and `faithful_iff_distinguishes`
when that is what the annotations declare. Where only the method throws, the condition is about the
accessors of the exception fields alone (`distinguishes_returned`, `distinguishes_threw`).

Nothing is said of a request that is canceled, and nothing of the encoders of the exceptions
themselves: these do not throw here, and what they write is read back.
-/

namespace Multiprocess.Stub

variable {X W : Type}

/-- The C++ exception types, by name, with objects `X` and values `W` of their fields. -/
structure Exceptions (X W : Type) where
  /-- `catch (const Exception&)` catches the object -/
  catches : String → X → Bool
  /-- what the `CustomBuildField` overload of the type writes -/
  build : String → X → W
  /-- the overload calls `output.setHas()` -/
  setsHas : String → Bool
  /-- what `ThrowField` of the type throws, with the type `std::runtime_error` for `std::exception` -/
  throwField : String → W → X
  /-- the value of a field that is not set, by the field's name -/
  unset : String → W
  /-- the object is an `InterruptException` -/
  interrupt : X → Bool
  /-- the parameter of this name is a `Proxy.Context` -/
  context : String → Bool

/-- How the method of the implementation ends. -/
inductive Outcome (X : Type) where
  | returned
  | threw (x : X)

def Outcome.thrown : Outcome X → Option X
  | .returned => none
  | .threw x => some x

/-- A call of the method, by what may throw in it. -/
structure Call (X : Type) where
  outcome : Outcome X
  /-- what `BuildField` of a result throws, by the field's name -/
  encoder : String → Option X
  /-- a `BuildField` that throws has set its field by then -/
  partly : String → Bool
  /-- what `ReadField` of a result throws on the client, by the field's name and whether it is set -/
  reader : String → Bool → Option X

/-- The results struct: the values of exception fields that are set, the `has` companions, and which
other fields are set. -/
structure Results (W : Type) where
  value : String → Option W
  has : String → Bool
  written : String → Bool

namespace Results

def blank : Results W where
  value _ := none
  has _ := false
  written _ := false

/-- `BuildField` of an exception. -/
def build (r : Results W) (name : String) (value : W) (setsHas : Bool) : Results W :=
  { r with
    value := Function.update r.value name (some value)
    has := if setsHas then Function.update r.has name true else r.has }

def write (r : Results W) (name : String) : Results W :=
  { r with written := Function.update r.written name true }

/-- `StructField::has` of an exception field. -/
def present (r : Results W) (field : Field) : Bool :=
  if field.accessor.optional then r.has field.name
  else if field.accessor.boxed then (r.value field.name).isSome
  else true

/-- Two structs do not differ at the field of a name. -/
structure SameAt (r r' : Results W) (name : String) : Prop where
  value : r.value name = r'.value name
  has : r.has name = r'.has name
  written : r.written name = r'.written name

end Results

/-! ## The server -/

/-- `ServerExcept::invoke`, after its parent has ended. -/
def serverExcept (types : Exceptions X W) (field : Field) :
    Outcome X × Results W → Outcome X × Results W
  | (.returned, r) => (.returned, r)
  | (.threw x, r) =>
    if types.catches field.exception x then
      (.returned, r.build field.name (types.build field.exception x)
        (field.accessor.optional && types.setsHas field.exception))
    else (.threw x, r)

/-- `PassField` of a `Proxy.Context`, on the worker thread. It writes no results. -/
def passContext (types : Exceptions X W) : Outcome X × Results W → Outcome X × Results W
  | (.returned, r) => (.returned, r)
  | (.threw x, r) => (if types.interrupt x then .returned else .threw x, r)

/-- The end of `ServerRet::invoke`, and of `PassField` of an argument that is an output. -/
def buildResult (call : Call X) (field : Field) :
    Outcome X × Results W → Outcome X × Results W
  | (.threw x, r) => (.threw x, r)
  | (.returned, r) =>
    if field.accessor.out then
      match call.encoder field.name with
      | none => (.returned, r.write field.name)
      | some x => (.threw x, if call.partly field.name then r.write field.name else r)
    else (.returned, r)

namespace Piece

/-- The piece of the client's and server's context argument. -/
def isContext (types : Exceptions X W) (piece : Piece) : Bool :=
  piece.field.kind = .param && types.context piece.field.name

/-- The callable of the piece, after those inside it have ended. -/
def invoke (types : Exceptions X W) (call : Call X) (piece : Piece)
    (run : Outcome X × Results W) : Outcome X × Results W :=
  match piece.field.kind with
  | .exception => serverExcept types piece.field run
  | _ => if piece.isContext types then passContext types run else buildResult call piece.field run

end Piece

/-- The server's callables around the method, the first field's outermost. -/
def serve (types : Exceptions X W) (call : Call X) (pieces : List Piece) :
    Outcome X × Results W :=
  pieces.foldr (Piece.invoke types call) (call.outcome, .blank)

/-! ## The client -/

/-- How the client call ends. -/
inductive Reply (X : Type) where
  | returned
  /-- the `ClientException` of a field throws -/
  | declared (field : String) (x : X)
  /-- `ReadField` of another field throws -/
  | unreadable (x : X)
  /-- the call failed with a `kj::Exception` -/
  | kjException
  /-- the server never calls the method -/
  | uncalled

/-- The chain of `ReadResults`. -/
def readResults (types : Exceptions X W) (call : Call X) (r : Results W) : List Piece → Reply X
  | [] => .returned
  | piece :: pieces =>
    match piece.field.kind with
    | .exception =>
      if r.present piece.field then
        .declared piece.field.name (types.throwField piece.field.exception
          ((r.value piece.field.name).getD (types.unset piece.field.name)))
      else readResults types call r pieces
    | _ =>
      if piece.field.accessor.out then
        match call.reader piece.field.name (r.written piece.field.name) with
        | some x => .unreadable x
        | none => readResults types call r pieces
      else readResults types call r pieces

/-- The server calls the method. A `Proxy.Context` that is not the outermost field hands the call to
a promise that the `PassField` around it drops. -/
def Called (types : Exceptions X W) (pieces : List Piece) : Prop :=
  ∀ piece ∈ pieces.tail, piece.isContext types = false

instance (types : Exceptions X W) (pieces : List Piece) : Decidable (Called types pieces) :=
  inferInstanceAs (Decidable (∀ piece ∈ pieces.tail, _))

/-- A call that is neither canceled nor disconnected: what leaves the callables is reported by the
RPC system. -/
def reply (types : Exceptions X W) (pieces : List Piece) (call : Call X) : Reply X :=
  if Called types pieces then
    match serve types call pieces with
    | (.threw _, _) => .kjException
    | (.returned, r) => readResults types call r pieces
  else .uncalled

/-! ## Faithful calls -/

/-- The declared types that match, the innermost `ServerExcept` first. -/
def matching (types : Exceptions X W) (pieces : List Piece) (x : X) : List Piece :=
  (pieces.filter fun piece =>
    piece.field.kind = .exception && types.catches piece.field.exception x).reverse

/-- The client call throws an object of a declared type, be it from a `ClientException` or from the
reader of another field. -/
def Reply.Declares (types : Exceptions X W) (pieces : List Piece) : Reply X → Prop
  | .declared _ _ => True
  | .unreadable x => matching types pieces x ≠ []
  | _ => False

/-- The method is called, and its outcome crosses the connection: if it returns, the client throws no
declared exception; if it throws what a declared type matches, the client throws the innermost such
type with the value read back; if it throws anything else, the client reports a kj exception. -/
def Faithful (types : Exceptions X W) (pieces : List Piece) (call : Call X) : Prop :=
  reply types pieces call ≠ .uncalled ∧
  match call.outcome with
  | .returned => ¬ (reply types pieces call).Declares types pieces
  | .threw x =>
    match (matching types pieces x).head? with
    | some piece => reply types pieces call = .declared piece.field.name
        (types.throwField piece.field.exception (types.build piece.field.exception x))
    | none => reply types pieces call = .kjException

/-! ## What decides it -/

/-- What leaves the callables of the pieces: what the method throws, or the encoder of a result after
it has returned or been caught, as far as no `ServerExcept` and no `PassField` of a `Proxy.Context`
around it stops it. -/
def raised (types : Exceptions X W) (call : Call X) : List Piece → Option X
  | [] => call.outcome.thrown
  | piece :: pieces =>
    match piece.field.kind with
    | .exception => (raised types call pieces).filter fun x => !types.catches piece.field.exception x
    | _ =>
      if piece.isContext types then (raised types call pieces).filter fun x => !types.interrupt x
      else (raised types call pieces).or
        (if piece.field.accessor.out then call.encoder piece.field.name else none)

namespace Field

/-- `has()` is true whatever the server did. -/
def alwaysPresent (field : Field) : Bool := !field.accessor.optional && !field.accessor.boxed

/-- `has()` is false although the server has written the field. -/
def neverPresent (types : Exceptions X W) (field : Field) : Bool :=
  field.accessor.optional && !types.setsHas field.exception

end Field

namespace Piece

variable (types : Exceptions X W) (call : Call X) (piece : Piece) (inside : List Piece)

/-- What the `ServerExcept` of a field catches, with the pieces inside it. -/
def caught : Option X :=
  (raised types call inside).filter fun x => types.catches piece.field.exception x

/-- The client sees an exception field as present. -/
def seen : Bool :=
  piece.field.alwaysPresent ||
    (piece.caught types call inside).isSome && !piece.field.neverPresent types

/-- The server sets the field of a result. -/
def sets : Bool :=
  !piece.isContext types && piece.field.accessor.out && (raised types call inside).isNone &&
    ((call.encoder piece.field.name).isNone || call.partly piece.field.name)

/-- What the client's reader of a result throws. -/
def rejected : Option X :=
  if piece.field.accessor.out then call.reader piece.field.name (piece.sets types call inside)
  else none

/-- The client reads no further than this field. -/
def stops : Bool :=
  match piece.field.kind with
  | .exception => piece.seen types call inside
  | _ => (piece.rejected types call inside).isSome

end Piece

/-- The first field that the client does not read past, with the pieces inside it. -/
def stop (types : Exceptions X W) (call : Call X) : List Piece → Option (Piece × List Piece)
  | [] => none
  | piece :: pieces =>
    if piece.stops types call pieces then some (piece, pieces) else stop types call pieces

/-- When a call is faithful. -/
def Distinguishes (types : Exceptions X W) (pieces : List Piece) (call : Call X) : Prop :=
  Called types pieces ∧
  match call.outcome with
  | .returned => raised types call pieces = none → ∀ last ∈ stop types call pieces,
      last.1.field.kind ≠ .exception ∧
        ∀ x ∈ last.1.rejected types call last.2, matching types pieces x = []
  | .threw x =>
    match (matching types pieces x).head? with
    | some piece => raised types call pieces = none ∧
        (stop types call pieces).map Prod.fst = some piece
    | none => ∀ piece ∈ pieces.head?, piece.isContext types = true → types.interrupt x = false

variable {types : Exceptions X W} {call : Call X} {pieces : List Piece} {piece : Piece}

/-! ## One callable -/

namespace Results.SameAt

variable {r r' r'' : Results W} {name other : String}

theorem refl (r : Results W) (name : String) : r.SameAt r name := ⟨rfl, rfl, rfl⟩

theorem trans (h : r.SameAt r' name) (h' : r'.SameAt r'' name) : r.SameAt r'' name :=
  ⟨h.value.trans h'.value, h.has.trans h'.has, h.written.trans h'.written⟩

/-- `BuildField` of an exception leaves the other fields alone. -/
theorem build (hne : other ≠ name) (value : W) (setsHas : Bool) :
    (r.build name value setsHas).SameAt r other where
  value := Function.update_of_ne hne _ _
  has := by
    unfold Results.build
    cases setsHas with
    | false => rfl
    | true => exact Function.update_of_ne hne _ _
  written := rfl

/-- So does that of a result. -/
theorem write (hne : other ≠ name) : (r.write name).SameAt r other where
  value := rfl
  has := rfl
  written := Function.update_of_ne hne _ _

end Results.SameAt

namespace Piece

variable {run : Outcome X × Results W} {name : String}

theorem invoke_exception (hk : piece.field.kind = .exception) (run : Outcome X × Results W) :
    piece.invoke types call run = serverExcept types piece.field run := by
  simp only [invoke, hk]

theorem invoke_context (h : piece.isContext types = true) (run : Outcome X × Results W) :
    piece.invoke types call run = passContext types run := by
  have hk : piece.field.kind = .param := by
    unfold isContext at h
    rw [Bool.and_eq_true, decide_eq_true_eq] at h
    exact h.1
  simp only [invoke, hk, h, if_true]

theorem invoke_result (hk : piece.field.kind ≠ .exception) (h : piece.isContext types = false)
    (run : Outcome X × Results W) :
    piece.invoke types call run = buildResult call piece.field run := by
  unfold invoke
  split
  · next he => exact absurd he hk
  · rw [h, if_neg Bool.false_ne_true]

/-- A field of an exception is no context argument. -/
theorem not_context (hk : piece.field.kind = .exception) : piece.isContext types = false := by
  unfold isContext
  rw [hk]
  rfl

/-- A callable writes no field but its own. -/
theorem invoke_other (hne : name ≠ piece.field.name) :
    (piece.invoke types call run).2.SameAt run.2 name := by
  obtain ⟨outcome, r⟩ := run
  by_cases hk : piece.field.kind = .exception
  · rw [invoke_exception hk]
    cases outcome with
    | returned => exact .refl r name
    | threw x =>
      unfold serverExcept
      simp only
      split
      · exact .build hne _ _
      · exact .refl r name
  · cases hc : piece.isContext types with
    | true =>
      rw [invoke_context hc]
      cases outcome <;> exact .refl r name
    | false =>
      rw [invoke_result hk hc]
      cases outcome with
      | threw x => exact .refl r name
      | returned =>
        unfold buildResult
        simp only
        split
        · split
          · exact .write hne
          · simp only
            split
            · exact .write hne
            · exact .refl r name
        · exact .refl r name

end Piece

theorem raised_exception (hk : piece.field.kind = .exception) :
    raised types call (piece :: pieces) =
      (raised types call pieces).filter fun x => !types.catches piece.field.exception x := by
  simp only [raised, hk]

theorem raised_result (hk : piece.field.kind ≠ .exception) :
    raised types call (piece :: pieces) =
      if piece.isContext types then (raised types call pieces).filter fun x => !types.interrupt x
      else (raised types call pieces).or
        (if piece.field.accessor.out then call.encoder piece.field.name else none) := by
  cases hkind : piece.field.kind with
  | exception => exact absurd hkind hk
  | retval | param => simp only [raised, hkind]

/-- What leaves a callable, by what leaves those inside it. -/
theorem invoke_raised {run : Outcome X × Results W}
    (h : run.1.thrown = raised types call pieces) :
    (piece.invoke types call run).1.thrown = raised types call (piece :: pieces) := by
  obtain ⟨outcome, r⟩ := run
  have hthrown : outcome.thrown = raised types call pieces := h
  by_cases hk : piece.field.kind = .exception
  · rw [Piece.invoke_exception hk, raised_exception hk, ← hthrown]
    cases outcome with
    | returned => rfl
    | threw x =>
      simp only [serverExcept, Outcome.thrown, Option.filter_some]
      cases types.catches piece.field.exception x <;> rfl
  · rw [raised_result hk, ← hthrown]
    cases hc : piece.isContext types with
    | true =>
      rw [Piece.invoke_context hc, if_pos rfl]
      cases outcome with
      | returned => rfl
      | threw x =>
        simp only [passContext, Outcome.thrown, Option.filter_some]
        cases types.interrupt x <;> rfl
    | false =>
      rw [Piece.invoke_result hk hc, if_neg Bool.false_ne_true]
      cases outcome with
      | threw x => rfl
      | returned =>
        simp only [buildResult, Outcome.thrown, Option.none_or]
        cases piece.field.accessor.out with
        | false => rfl
        | true =>
          simp only [if_true]
          cases call.encoder piece.field.name <;> rfl

/-- What the server's callables come to. -/
theorem serve_raised (types : Exceptions X W) (call : Call X) (pieces : List Piece) :
    (serve types call pieces).1.thrown = raised types call pieces := by
  induction pieces with
  | nil => rfl
  | cons piece pieces ih => exact invoke_raised ih

/-! ## The results of a call -/

/-- The results hold at the piece's field what the outcome says. -/
structure Piece.Described (types : Exceptions X W) (call : Call X) (r : Results W) (piece : Piece)
    (inside : List Piece) : Prop where
  value : piece.field.kind = .exception → r.value piece.field.name =
    (piece.caught types call inside).map (types.build piece.field.exception)
  has : piece.field.kind = .exception → r.has piece.field.name =
    ((piece.caught types call inside).isSome && piece.field.accessor.optional &&
      types.setsHas piece.field.exception)
  written : piece.field.kind ≠ .exception →
    r.written piece.field.name = piece.sets types call inside

/-- They do so at every field. -/
def Described (types : Exceptions X W) (call : Call X) (r : Results W) : List Piece → Prop
  | [] => True
  | piece :: pieces => piece.Described types call r pieces ∧ Described types call r pieces

theorem Piece.Described.congr {r r' : Results W} {inside : List Piece}
    (h : piece.Described types call r inside) (same : r'.SameAt r piece.field.name) :
    piece.Described types call r' inside where
  value hk := same.value.trans (h.value hk)
  has hk := same.has.trans (h.has hk)
  written hk := same.written.trans (h.written hk)

theorem Described.congr {r r' : Results W} (h : Described types call r pieces)
    (same : ∀ name ∈ pieces.map (·.field.name), r'.SameAt r name) :
    Described types call r' pieces := by
  induction pieces with
  | nil => trivial
  | cons piece pieces ih =>
    rw [List.map_cons, List.forall_mem_cons] at same
    exact ⟨h.1.congr same.1, ih h.2 same.2⟩

/-- The callables write no field but theirs. -/
theorem serve_other {name : String} (hname : name ∉ pieces.map (·.field.name)) :
    (serve types call pieces).2.SameAt .blank name := by
  induction pieces with
  | nil => exact .refl _ _
  | cons piece pieces ih =>
    rw [List.map_cons, List.mem_cons, not_or] at hname
    exact (Piece.invoke_other hname.1).trans (ih hname.2)

/-- A callable leaves at its field what is written there, where nothing was before. -/
theorem invoke_described {run : Outcome X × Results W} {inside : List Piece}
    (hraised : run.1.thrown = raised types call inside)
    (hblank : run.2.SameAt .blank piece.field.name) :
    piece.Described types call (piece.invoke types call run).2 inside := by
  obtain ⟨outcome, r⟩ := run
  have hvalue : r.value piece.field.name = none := hblank.value
  have hhas : r.has piece.field.name = false := hblank.has
  have hwritten : r.written piece.field.name = false := hblank.written
  by_cases hk : piece.field.kind = .exception
  · rw [Piece.invoke_exception hk]
    have hcaught : piece.caught types call inside =
        outcome.thrown.filter fun x => types.catches piece.field.exception x := by
      unfold Piece.caught
      rw [← hraised]
    cases outcome with
    | returned =>
      exact {
        value := fun _ => hvalue.trans (by rw [hcaught]; rfl)
        has := fun _ => hhas.trans (by rw [hcaught]; rfl)
        written := fun hne => absurd hk hne }
    | threw x =>
      cases hcatches : types.catches piece.field.exception x with
      | false =>
        have hnone : piece.caught types call inside = none := by
          rw [hcaught, Outcome.thrown, Option.filter_some, hcatches]
          rfl
        simp only [serverExcept, hcatches, Bool.false_eq_true, if_false]
        exact {
          value := fun _ => hvalue.trans (by rw [hnone]; rfl)
          has := fun _ => hhas.trans (by rw [hnone]; rfl)
          written := fun hne => absurd hk hne }
      | true =>
        have hsome : piece.caught types call inside = some x := by
          rw [hcaught, Outcome.thrown, Option.filter_some, hcatches, if_pos rfl]
        simp only [serverExcept, hcatches, if_true]
        refine ⟨fun _ => ?_, fun _ => ?_, fun hne => absurd hk hne⟩
        · rw [hsome]
          exact Function.update_self _ _ _
        · rw [hsome]
          simp only [Results.build, Option.isSome_some, Bool.true_and]
          cases piece.field.accessor.optional && types.setsHas piece.field.exception with
          | false => exact hhas
          | true => exact Function.update_self _ _ _
  · refine ⟨fun he => absurd he hk, fun he => absurd he hk, fun _ => ?_⟩
    unfold Piece.sets
    rw [← hraised]
    cases hc : piece.isContext types with
    | true =>
      rw [Piece.invoke_context hc]
      cases outcome <;> exact hwritten
    | false =>
      rw [Piece.invoke_result hk hc]
      cases outcome with
      | threw x =>
        refine hwritten.trans ?_
        simp only [Outcome.thrown, Option.isNone_some, Bool.and_false, Bool.false_and]
      | returned =>
        simp only [buildResult, Outcome.thrown, Option.isNone_none, Bool.not_false, Bool.true_and,
          Bool.and_true]
        cases piece.field.accessor.out with
        | false => exact hwritten
        | true =>
          simp only [if_true, Bool.true_and]
          cases call.encoder piece.field.name with
          | none => exact Function.update_self _ _ _
          | some x =>
            simp only [Option.isNone_some, Bool.false_or]
            cases call.partly piece.field.name with
            | false => exact hwritten
            | true => exact Function.update_self _ _ _

/-- The results struct of a call, with fields of different names. -/
theorem serve_described (nodup : (pieces.map (·.field.name)).Nodup) :
    Described types call (serve types call pieces).2 pieces := by
  induction pieces with
  | nil => trivial
  | cons piece pieces ih =>
    obtain ⟨hnot, hrest⟩ := List.nodup_cons.mp nodup
    refine ⟨invoke_described (serve_raised types call pieces) (serve_other hnot),
      (ih hrest).congr fun name hname => Piece.invoke_other ?_⟩
    rintro rfl
    exact hnot hname

/-! ## What the client reads -/

section Reading

variable {r : Results W} {inside : List Piece}

/-- Presence of an exception field, by what its `ServerExcept` caught. -/
theorem Piece.Described.present (h : piece.Described types call r inside)
    (hk : piece.field.kind = .exception) : r.present piece.field = piece.seen types call inside := by
  unfold Results.present Piece.seen Field.alwaysPresent Field.neverPresent
  rw [h.value hk, h.has hk, Option.isSome_map]
  cases piece.field.accessor.optional <;> cases piece.field.accessor.boxed <;>
    cases types.setsHas piece.field.exception <;>
    cases (piece.caught types call inside).isSome <;> rfl

theorem readResults_exception (h : piece.Described types call r inside)
    (hk : piece.field.kind = .exception) :
    readResults types call r (piece :: pieces) =
      if piece.stops types call inside then
        .declared piece.field.name (types.throwField piece.field.exception
          (((piece.caught types call inside).map (types.build piece.field.exception)).getD
            (types.unset piece.field.name)))
      else readResults types call r pieces := by
  simp only [readResults, Piece.stops, hk, h.present hk, h.value hk]

theorem readResults_result (h : piece.Described types call r inside)
    (hk : piece.field.kind ≠ .exception) :
    readResults types call r (piece :: pieces) =
      match piece.rejected types call inside with
      | some x => .unreadable x
      | none => readResults types call r pieces := by
  have hread : readResults types call r (piece :: pieces) =
      if piece.field.accessor.out then
        match call.reader piece.field.name (r.written piece.field.name) with
        | some x => .unreadable x
        | none => readResults types call r pieces
      else readResults types call r pieces := by
    cases hkind : piece.field.kind with
    | exception => exact absurd hkind hk
    | retval | param => simp only [readResults, hkind]
  rw [hread, h.written hk]
  unfold Piece.rejected
  cases piece.field.accessor.out <;> rfl

theorem stops_exception (hk : piece.field.kind = .exception) :
    piece.stops types call inside = piece.seen types call inside := by
  simp only [Piece.stops, hk]

theorem stops_result (hk : piece.field.kind ≠ .exception) :
    piece.stops types call inside = (piece.rejected types call inside).isSome := by
  unfold Piece.stops
  split
  · next he => exact absurd he hk
  · rfl

end Reading

section Reading

variable {r : Results W} {inside : List Piece}

theorem stop_cons_of (h : piece.stops types call pieces = true) :
    stop types call (piece :: pieces) = some (piece, pieces) := by
  rw [stop, if_pos h]

theorem stop_cons_of_not (h : piece.stops types call pieces = false) :
    stop types call (piece :: pieces) = stop types call pieces := by
  rw [stop, if_neg (by rw [h]; exact Bool.false_ne_true)]

/-- A field the client reads past. -/
theorem readResults_cons_of_not (h : piece.Described types call r pieces)
    (hstops : piece.stops types call pieces = false) :
    readResults types call r (piece :: pieces) = readResults types call r pieces := by
  by_cases hk : piece.field.kind = .exception
  · rw [readResults_exception h hk, hstops, if_neg Bool.false_ne_true]
  · have hnone : piece.rejected types call pieces = none := by
      rw [stops_result hk] at hstops
      exact Option.isNone_iff_eq_none.mp (Option.isSome_eq_false_iff.mp hstops)
    rw [readResults_result h hk, hnone]

/-- The client reads all fields. -/
theorem readResults_none (h : Described types call r pieces) (hstop : stop types call pieces = none) :
    readResults types call r pieces = .returned := by
  induction pieces with
  | nil => rfl
  | cons piece pieces ih =>
    cases hstops : piece.stops types call pieces with
    | true =>
      rw [stop_cons_of hstops] at hstop
      cases hstop
    | false =>
      rw [stop_cons_of_not hstops] at hstop
      rw [readResults_cons_of_not h.1 hstops]
      exact ih h.2 hstop

/-- It reads up to some field. -/
theorem readResults_some (h : Described types call r pieces)
    (hstop : stop types call pieces = some (piece, inside)) :
    piece.Described types call r inside ∧ piece.stops types call inside = true ∧
      readResults types call r pieces = readResults types call r (piece :: inside) := by
  induction pieces with
  | nil => cases hstop
  | cons first pieces ih =>
    cases hstops : first.stops types call pieces with
    | true =>
      rw [stop_cons_of hstops] at hstop
      cases hstop
      exact ⟨h.1, hstops, rfl⟩
    | false =>
      rw [stop_cons_of_not hstops] at hstop
      rw [readResults_cons_of_not h.1 hstops]
      exact ih h.2 hstop

/-- It stops at an exception field, and throws what that holds. -/
theorem readResults_declared (h : Described types call r pieces)
    (hstop : stop types call pieces = some (piece, inside)) (hk : piece.field.kind = .exception) :
    readResults types call r pieces = .declared piece.field.name
      (types.throwField piece.field.exception
        (((piece.caught types call inside).map (types.build piece.field.exception)).getD
          (types.unset piece.field.name))) := by
  obtain ⟨hpiece, hstops, hread⟩ := readResults_some h hstop
  rw [hread, readResults_exception hpiece hk, hstops, if_pos rfl]

/-- It stops at another field, whose reader throws. -/
theorem readResults_unreadable (h : Described types call r pieces)
    (hstop : stop types call pieces = some (piece, inside)) (hk : piece.field.kind ≠ .exception) :
    ∃ x, piece.rejected types call inside = some x ∧
      readResults types call r pieces = .unreadable x := by
  obtain ⟨hpiece, hstops, hread⟩ := readResults_some h hstop
  rw [stops_result hk] at hstops
  obtain ⟨x, hx⟩ := Option.isSome_iff_exists.mp hstops
  refine ⟨x, hx, ?_⟩
  rw [hread, readResults_result hpiece hk, hx]

/-- The pieces inside it are those after it. -/
theorem stop_split (hstop : stop types call pieces = some (piece, inside)) :
    ∃ before, pieces = before ++ piece :: inside := by
  induction pieces with
  | nil => cases hstop
  | cons first pieces ih =>
    rw [stop] at hstop
    split at hstop
    · cases hstop
      exact ⟨[], rfl⟩
    · obtain ⟨before, rfl⟩ := ih hstop
      exact ⟨first :: before, rfl⟩

end Reading

/-! ## The whole call -/

theorem reply_uncalled (h : ¬ Called types pieces) : reply types pieces call = .uncalled := by
  rw [reply, if_neg h]

/-- What leaves the callables is reported as a kj exception. -/
theorem reply_raised (hcalled : Called types pieces) {x : X}
    (h : raised types call pieces = some x) : reply types pieces call = .kjException := by
  rw [reply, if_pos hcalled]
  have hthrown := serve_raised types call pieces
  rw [h] at hthrown
  cases hserve : serve types call pieces with
  | mk outcome r =>
    cases outcome with
    | returned =>
      rw [hserve] at hthrown
      cases hthrown
    | threw y => rfl

/-- Where nothing leaves them the client reads the results. -/
theorem reply_read (hcalled : Called types pieces) (h : raised types call pieces = none) :
    reply types pieces call = readResults types call (serve types call pieces).2 pieces := by
  rw [reply, if_pos hcalled]
  have hthrown := serve_raised types call pieces
  rw [h] at hthrown
  cases hserve : serve types call pieces with
  | mk outcome r =>
    cases outcome with
    | returned => rfl
    | threw y =>
      rw [hserve] at hthrown
      cases hthrown

/-- A reading client neither reports a kj exception nor lacks a call. -/
theorem readResults_read (types : Exceptions X W) (call : Call X) (r : Results W)
    (pieces : List Piece) : readResults types call r pieces ≠ .kjException ∧
      readResults types call r pieces ≠ .uncalled := by
  induction pieces with
  | nil => exact ⟨nofun, nofun⟩
  | cons piece pieces ih =>
    unfold readResults
    split
    · split
      · exact ⟨nofun, nofun⟩
      · exact ih
    · split
      · split
        · exact ⟨nofun, nofun⟩
        · exact ih
      · exact ih

/-- The method is called exactly where no context argument is inside another field. -/
theorem reply_ne_uncalled : reply types pieces call ≠ .uncalled ↔ Called types pieces := by
  refine ⟨fun h => ?_, fun hcalled => ?_⟩
  · by_contra hnot
    exact h (reply_uncalled hnot)
  · cases hr : raised types call pieces with
    | some x =>
      rw [reply_raised hcalled hr]
      nofun
    | none =>
      rw [reply_read hcalled hr]
      exact (readResults_read types call _ pieces).2

/-- The field catches the object. -/
def Piece.Matches (types : Exceptions X W) (x : X) (piece : Piece) : Prop :=
  piece.field.kind = .exception ∧ types.catches piece.field.exception x = true

section Threw

variable {x : X} {before inside : List Piece}

theorem mem_matching : piece ∈ matching types pieces x ↔ piece ∈ pieces ∧ piece.Matches types x := by
  unfold matching Piece.Matches
  rw [List.mem_reverse, List.mem_filter, Bool.and_eq_true, decide_eq_true_eq]

/-- An object that no field matches leaves the callables, with no context argument among them. -/
theorem raised_unmatched (hthrew : call.outcome = .threw x)
    (hno : ∀ p ∈ pieces, ¬ p.Matches types x)
    (hcontext : ∀ p ∈ pieces, p.isContext types = false) :
    raised types call pieces = some x := by
  induction pieces with
  | nil =>
    rw [raised, hthrew]
    rfl
  | cons piece pieces ih =>
    rw [List.forall_mem_cons] at hno hcontext
    have hrest := ih hno.2 hcontext.2
    by_cases hk : piece.field.kind = .exception
    · have hcatches : types.catches piece.field.exception x = false := by
        rw [← Bool.not_eq_true]
        exact fun h => hno.1 ⟨hk, h⟩
      rw [raised_exception hk, hrest, Option.filter_some, hcatches]
      rfl
    · rw [raised_result hk, hcontext.1, if_neg Bool.false_ne_true, hrest]
      rfl

/-- What is inside a field is called inside another. -/
theorem not_context_inside (h : Called types (before ++ piece :: inside)) :
    ∀ p ∈ inside, p.isContext types = false := by
  intro p hp
  apply h p
  cases before with
  | nil => exact hp
  | cons first before => exact List.mem_append_right _ (List.mem_cons_of_mem _ hp)

/-- Nothing inside the innermost field that matches matches too. -/
theorem inside_unmatched (nodup : ((before ++ piece :: inside).map (·.field.name)).Nodup)
    (h : (matching types (before ++ piece :: inside) x).head? = some piece) :
    ∀ p ∈ inside, ¬ p.Matches types x := by
  have hnot : piece ∉ inside := by
    intro hmem
    rw [List.map_append, List.nodup_append] at nodup
    exact (List.nodup_cons.mp nodup.2.1).1 (List.mem_map_of_mem hmem)
  intro p hp hm
  have hsplit : matching types (before ++ piece :: inside) x =
      matching types inside x ++ matching types (before ++ [piece]) x := by
    unfold matching
    rw [← List.reverse_append, ← List.filter_append, List.append_assoc, List.singleton_append]
  rw [hsplit] at h
  cases hinside : matching types inside x with
  | nil =>
    have hmem : p ∈ matching types inside x := mem_matching.mpr ⟨hp, hm⟩
    rw [hinside] at hmem
    exact List.not_mem_nil hmem
  | cons q rest =>
    rw [hinside, List.cons_append, List.head?_cons] at h
    obtain rfl := Option.some.inj h
    have hmem : q ∈ matching types inside x := by
      rw [hinside]
      exact List.mem_cons_self
    exact hnot (mem_matching.mp hmem).1

/-- A method that returns. -/
theorem returned_iff (nodup : (pieces.map (·.field.name)).Nodup) (hcalled : Called types pieces) :
    ¬ (reply types pieces call).Declares types pieces ↔
      (raised types call pieces = none → ∀ last ∈ stop types call pieces,
        last.1.field.kind ≠ .exception ∧
          ∀ x ∈ last.1.rejected types call last.2, matching types pieces x = []) := by
  cases hr : raised types call pieces with
  | some x =>
    rw [reply_raised hcalled hr]
    exact iff_of_true id nofun
  | none =>
    rw [reply_read hcalled hr, forall_prop_of_true rfl]
    have hdescribed : Described types call (serve types call pieces).2 pieces :=
      serve_described nodup
    cases hstop : stop types call pieces with
    | none =>
      rw [readResults_none hdescribed hstop]
      exact iff_of_true id fun _ h => absurd h (Option.not_mem_none _)
    | some last =>
      simp only [Option.mem_some_iff, forall_eq']
      by_cases hk : last.1.field.kind = .exception
      · rw [readResults_declared hdescribed hstop hk]
        exact iff_of_false (fun h => h trivial) fun h => h.1 hk
      · obtain ⟨x, hx, hread⟩ := readResults_unreadable hdescribed hstop hk
        rw [hread, hx]
        simp only [Reply.Declares, ne_eq, not_not, hk, not_false_eq_true, true_and,
          Option.mem_some_iff, forall_eq']

/-- A method that throws what is declared. -/
theorem threw_matched_iff (nodup : (pieces.map (·.field.name)).Nodup)
    (hcalled : Called types pieces) (hthrew : call.outcome = .threw x)
    (hmatching : (matching types pieces x).head? = some piece) :
    reply types pieces call = .declared piece.field.name
        (types.throwField piece.field.exception (types.build piece.field.exception x)) ↔
      raised types call pieces = none ∧ (stop types call pieces).map Prod.fst = some piece := by
  obtain ⟨hmem, hmatches⟩ := mem_matching.mp (List.mem_of_mem_head? hmatching)
  have hdescribed : Described types call (serve types call pieces).2 pieces :=
    serve_described nodup
  constructor
  · intro hreply
    cases hr : raised types call pieces with
    | some y =>
      rw [reply_raised hcalled hr] at hreply
      cases hreply
    | none =>
      rw [reply_read hcalled hr] at hreply
      cases hstop : stop types call pieces with
      | none =>
        rw [readResults_none hdescribed hstop] at hreply
        cases hreply
      | some last =>
        obtain ⟨before, hsplit⟩ := stop_split hstop
        by_cases hk : last.1.field.kind = .exception
        · rw [readResults_declared hdescribed hstop hk] at hreply
          have hlast : last.1 ∈ pieces := by
            rw [hsplit]
            exact List.mem_append_right _ List.mem_cons_self
          have hname : last.1.field.name = piece.field.name := (Reply.declared.inj hreply).1
          exact ⟨rfl, congrArg some (List.inj_on_of_nodup_map nodup hlast hmem hname)⟩
        · obtain ⟨y, -, hread⟩ := readResults_unreadable hdescribed hstop hk
          rw [hread] at hreply
          cases hreply
  · rintro ⟨hr, hstop⟩
    obtain ⟨⟨last, inside⟩, hlast, rfl⟩ := Option.map_eq_some_iff.mp hstop
    obtain ⟨before, hsplit⟩ := stop_split hlast
    have hinside : raised types call inside = some x := by
      rw [hsplit] at nodup hmatching hcalled
      exact raised_unmatched hthrew (inside_unmatched nodup hmatching)
        (not_context_inside hcalled)
    have hcaught : last.caught types call inside = some x := by
      unfold Piece.caught
      rw [hinside, Option.filter_some, hmatches.2, if_pos rfl]
    rw [reply_read hcalled hr, readResults_declared hdescribed hlast hmatches.1, hcaught]
    rfl

/-- A method that throws anything else: only the context argument stops it. -/
theorem threw_unmatched_iff (hcalled : Called types pieces) (hthrew : call.outcome = .threw x)
    (hmatching : (matching types pieces x).head? = none) :
    reply types pieces call = .kjException ↔
      ∀ piece ∈ pieces.head?, piece.isContext types = true → types.interrupt x = false := by
  have hno : ∀ p ∈ pieces, ¬ p.Matches types x := by
    intro p hp hm
    have hnil : matching types pieces x = [] := List.head?_eq_none_iff.mp hmatching
    have hmem : p ∈ matching types pieces x := mem_matching.mpr ⟨hp, hm⟩
    rw [hnil] at hmem
    exact List.not_mem_nil hmem
  cases pieces with
  | nil =>
    rw [reply_raised hcalled (raised_unmatched hthrew hno fun _ h => absurd h List.not_mem_nil)]
    exact iff_of_true rfl fun _ h => absurd h (Option.not_mem_none _)
  | cons piece pieces =>
    simp only [List.head?_cons, Option.mem_some_iff, forall_eq']
    have hrest : raised types call pieces = some x :=
      raised_unmatched hthrew (List.forall_mem_cons.mp hno).2 hcalled
    cases hc : piece.isContext types with
    | false =>
      have hr : raised types call (piece :: pieces) = some x :=
        raised_unmatched hthrew hno (List.forall_mem_cons.mpr ⟨hc, hcalled⟩)
      rw [reply_raised hcalled hr]
      exact iff_of_true rfl nofun
    | true =>
      have hk : piece.field.kind ≠ .exception := by
        intro he
        rw [Piece.not_context he] at hc
        cases hc
      have hr : raised types call (piece :: pieces) =
          (some x).filter fun x => !types.interrupt x := by
        rw [raised_result hk, hc, if_pos rfl, hrest]
      rw [Option.filter_some] at hr
      cases hi : types.interrupt x with
      | false =>
        rw [hi] at hr
        rw [reply_raised hcalled hr]
        exact iff_of_true rfl fun _ => rfl
      | true =>
        rw [hi] at hr
        rw [reply_read hcalled hr]
        exact iff_of_false (readResults_read types call _ _).1 fun h => nomatch h rfl

end Threw

theorem faithful_iff (nodup : (pieces.map (·.field.name)).Nodup) :
    Faithful types pieces call ↔ Distinguishes types pieces call := by
  unfold Faithful Distinguishes
  rw [reply_ne_uncalled]
  apply and_congr_right
  intro hcalled
  cases hout : call.outcome with
  | returned => exact returned_iff nodup hcalled
  | threw x =>
    simp only
    cases hm : (matching types pieces x).head? with
    | some piece => exact threw_matched_iff nodup hcalled hout hm
    | none => exact threw_unmatched_iff hcalled hout hm

/-! ## Where only the method throws -/

/-- A call in which only the method throws. -/
def quietCall (outcome : Outcome X) : Call X where
  outcome := outcome
  encoder _ := none
  partly _ := false
  reader _ _ := none

section Quiet

variable {outcome : Outcome X} {x : X} {before inside : List Piece}

/-- Nothing leaves the callables around those that nothing left. -/
theorem raised_quiet (before : List Piece) (h : raised types (quietCall outcome) inside = none) :
    raised types (quietCall outcome) (before ++ inside) = none := by
  induction before with
  | nil => exact h
  | cons piece before ih =>
    rw [List.cons_append]
    by_cases hk : piece.field.kind = .exception
    · rw [raised_exception hk, ih]
      rfl
    · rw [raised_result hk, ih]
      simp only [quietCall, ite_self, Option.filter_none, Option.or_none]

/-- With nothing to catch, the client stops at an exception field that is always present, and at no
other. -/
theorem stops_quiet (h : raised types (quietCall outcome) inside = none) :
    piece.stops types (quietCall outcome) inside = true ↔
      piece.field.kind = .exception ∧ piece.field.alwaysPresent = true := by
  by_cases hk : piece.field.kind = .exception
  · rw [stops_exception hk]
    simp only [Piece.seen, Piece.caught, h, Option.filter_none, Option.isSome_none, Bool.false_and,
      Bool.or_false, hk, true_and]
  · rw [stops_result hk]
    simp only [Piece.rejected, quietCall, ite_self, Option.isSome_none, Bool.false_eq_true, hk,
      false_and]

/-- The client reads past the fields outside, if none of them is always present. -/
theorem stop_append (h : raised types (quietCall outcome) inside = none)
    (hbefore : ∀ p ∈ before, p.field.kind = .exception → p.field.alwaysPresent = false) :
    stop types (quietCall outcome) (before ++ inside) = stop types (quietCall outcome) inside := by
  induction before with
  | nil => rfl
  | cons piece before ih =>
    rw [List.forall_mem_cons] at hbefore
    have hstops : piece.stops types (quietCall outcome) (before ++ inside) = false := by
      rw [← Bool.not_eq_true, stops_quiet (raised_quiet before h)]
      rintro ⟨hk, halways⟩
      cases (hbefore.1 hk).symm.trans halways
    rw [List.cons_append, stop_cons_of_not hstops]
    exact ih hbefore.2

/-- If one of them is, it stops at an exception field there. -/
theorem stop_before (h : raised types (quietCall outcome) inside = none) (hmem : piece ∈ before)
    (hk : piece.field.kind = .exception) (halways : piece.field.alwaysPresent = true) :
    ∃ last, stop types (quietCall outcome) (before ++ inside) = some last ∧ last.1 ∈ before ∧
      last.1.field.kind = .exception := by
  induction before with
  | nil => cases hmem
  | cons first before ih =>
    have hraised := raised_quiet before h
    rw [List.cons_append]
    cases hstops : first.stops types (quietCall outcome) (before ++ inside) with
    | true =>
      exact ⟨_, stop_cons_of hstops, List.mem_cons_self, ((stops_quiet hraised).mp hstops).1⟩
    | false =>
      rcases List.mem_cons.mp hmem with rfl | hmem
      · cases ((stops_quiet hraised).mpr ⟨hk, halways⟩).symm.trans hstops
      · obtain ⟨last, hstop, hlast, hkind⟩ := ih hmem
        rw [stop_cons_of_not hstops]
        exact ⟨last, hstop, List.mem_cons_of_mem _ hlast, hkind⟩

/-- A call of a method that returns is faithful where no exception field is always present. -/
theorem distinguishes_returned : Distinguishes types pieces (quietCall .returned) ↔
    Called types pieces ∧
      ∀ p ∈ pieces, p.field.kind = .exception → p.field.alwaysPresent = false := by
  have hnil : raised types (quietCall (.returned : Outcome X)) [] = none := rfl
  apply and_congr_right
  intro _
  constructor
  · intro h p hp hk
    by_contra halways
    rw [Bool.not_eq_false] at halways
    obtain ⟨last, hstop, -, hkind⟩ := stop_before hnil hp hk halways
    have hraised := raised_quiet pieces hnil
    rw [List.append_nil] at hstop hraised
    exact (h hraised last hstop).1 hkind
  · intro h _ last hlast
    have hstop := stop_append hnil h
    rw [List.append_nil] at hstop
    cases hlast.symm.trans hstop

/-- One of a method that throws what is declared is faithful where the innermost matching field is
present once it is written, and no exception field before it is always present. -/
theorem distinguishes_threw (nodup : ((before ++ piece :: inside).map (·.field.name)).Nodup)
    (hmatching : (matching types (before ++ piece :: inside) x).head? = some piece) :
    Distinguishes types (before ++ piece :: inside) (quietCall (.threw x)) ↔
      Called types (before ++ piece :: inside) ∧
        (∀ p ∈ before, p.field.kind = .exception → p.field.alwaysPresent = false) ∧
        piece.field.neverPresent types = false := by
  have hdistinguishes : Distinguishes types (before ++ piece :: inside) (quietCall (.threw x)) ↔
      Called types (before ++ piece :: inside) ∧
        raised types (quietCall (.threw x)) (before ++ piece :: inside) = none ∧
        (stop types (quietCall (.threw x)) (before ++ piece :: inside)).map Prod.fst =
          some piece := by
    unfold Distinguishes
    simp only [quietCall, hmatching]
  rw [hdistinguishes]
  apply and_congr_right
  intro hcalled
  have hmatches := (mem_matching.mp (List.mem_of_mem_head? hmatching)).2
  have hinside : raised types (quietCall (.threw x)) inside = some x :=
    raised_unmatched rfl (inside_unmatched nodup hmatching) (not_context_inside hcalled)
  have hcaught : piece.caught types (quietCall (.threw x)) inside = some x := by
    unfold Piece.caught
    rw [hinside, Option.filter_some, hmatches.2, if_pos rfl]
  have hraised : raised types (quietCall (.threw x)) (piece :: inside) = none := by
    rw [raised_exception hmatches.1, hinside, Option.filter_some, hmatches.2]
    rfl
  have hstops : piece.stops types (quietCall (.threw x)) inside =
      !piece.field.neverPresent types := by
    rw [stops_exception hmatches.1, Piece.seen, hcaught]
    unfold Field.alwaysPresent Field.neverPresent
    cases piece.field.accessor.optional <;> cases types.setsHas piece.field.exception <;>
      cases piece.field.accessor.boxed <;> rfl
  have hbeside : piece ∉ before ∧ piece ∉ inside := by
    rw [List.map_append, List.nodup_append] at nodup
    refine ⟨fun hmem => ?_, fun hmem => ?_⟩
    · exact nodup.2.2 _ (List.mem_map_of_mem hmem) _ List.mem_cons_self rfl
    · exact (List.nodup_cons.mp nodup.2.1).1 (List.mem_map_of_mem hmem)
  constructor
  · rintro ⟨-, hstop⟩
    have hbefore : ∀ p ∈ before, p.field.kind = .exception → p.field.alwaysPresent = false := by
      intro p hp hk
      by_contra halways
      rw [Bool.not_eq_false] at halways
      obtain ⟨last, hlast, hmem, -⟩ := stop_before hraised hp hk halways
      rw [hlast] at hstop
      obtain rfl : last.1 = piece := Option.some.inj hstop
      exact hbeside.1 hmem
    refine ⟨hbefore, ?_⟩
    by_contra hnever
    rw [Bool.not_eq_false] at hnever
    rw [hnever] at hstops
    rw [stop_append hraised hbefore, stop_cons_of_not hstops] at hstop
    obtain ⟨last, hlast, rfl⟩ := Option.map_eq_some_iff.mp hstop
    obtain ⟨front, rfl⟩ := stop_split hlast
    exact hbeside.2 (List.mem_append_right _ List.mem_cons_self)
  · rintro ⟨hbefore, hnever⟩
    rw [hnever] at hstops
    refine ⟨raised_quiet before hraised, ?_⟩
    rw [stop_append hraised hbefore, stop_cons_of hstops]
    rfl

end Quiet

/-! ## Every method -/

/-- The fields of the pieces are among those of the method. -/
theorem emit_fields (argc : Nat) (fields : FieldList) :
    ((emit argc fields).map Piece.field).Sublist fields := by
  induction fields generalizing argc with
  | nil => exact .slnil
  | cons field fields ih =>
    unfold emit
    split
    · exact (ih argc).cons _
    · exact (ih _).cons_cons _

theorem emit_names (argc : Nat) (fields : FieldList) :
    ((emit argc fields).map (·.field.name)).Sublist (fields.map Field.name) := by
  have h := (emit_fields argc fields).map Field.name
  rwa [List.map_map] at h

/-- One exception type, with texts as objects and values, whose overload does not call `setHas`; the
text `"canceled"` is an `InterruptException`, and a parameter `context` a `Proxy.Context`. -/
def textErrors : Exceptions String String where
  catches _ x := x ≠ "canceled"
  build _ x := x
  setsHas _ := false
  throwField _ value := value
  unset _ := ""
  interrupt x := x = "canceled"
  context name := name = "context"

end Multiprocess.Stub
