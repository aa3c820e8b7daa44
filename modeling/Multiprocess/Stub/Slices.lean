import Multiprocess.Stub.Fields

/-!
# Which arguments a field carries

`mpgen` counts through the C++ parameters as it goes through the fields of a method
(`src/src/mp/gen.cpp`), the client splits the parameter types along its chain of field objects, and
the server splits them along its nested callables (`src/include/mp/proxy-types.h`).

`slices_agree_iff` says for which schemas the three agree. Whether the types of the arguments fit
those of the fields is for the C++ compiler to find out.
-/

namespace Multiprocess.Stub

variable {T : Type}

/-- The C++ method: `Params` and `Result`, which is `none` for `void`. -/
structure Signature (T : Type) where
  params : List T
  result : Option T

namespace Signature

/-- The parameter types with their positions, so that equal types are told apart. -/
def arguments (sig : Signature T) : List (T × Nat) := sig.params.zipIdx

def resultType (sig : Signature T) : List (T × Nat) :=
  (sig.result.map fun result => (result, sig.params.length)).toList

/-- `FunctionTraits::Fields`. -/
def fields (sig : Signature T) : List (T × Nat) := sig.arguments ++ sig.resultType

end Signature

/-- `Split`; `none` where the list is too short and there is no such type. -/
def split {α : Type} : Nat → List α → List α → Option (List α × List α)
  | 0, second, first => some (first, second)
  | index + 1, type :: second, first => split index second (first ++ [type])
  | _ + 1, [], _ => none

/-! ## What `mpgen` writes -/

/-- What is written for one field. `params` are the numbers of its `Param` and `Fwd` arguments. -/
structure Piece where
  field : Field
  params : List Nat

/-- The loop of `Generate` over the fields of a method, from an `argc` on. -/
def emit (argc : Nat) : FieldList → List Piece
  | [] => []
  | field :: fields =>
    if field.skip then emit argc fields
    else ⟨field, List.range' argc field.args.toNat⟩ :: emit (argc + field.args.toNat) fields

namespace Piece

/-- The C++ parameters named in the arguments of the field. -/
def named (sig : Signature T) (piece : Piece) : List (T × Nat) :=
  piece.params.filterMap (sig.arguments[·]?)

/-- The number of values of the client's field object: `ClientException` has none, and a return
value one, the variable `result`. -/
def values (piece : Piece) : Nat :=
  match piece.field.kind with
  | .exception => 0
  | .retval => 1
  | .param => piece.params.length

end Piece

/-! ## The client -/

/-- `IterateFieldsHelper::handleChain` of an object of `n` values, followed by objects of `rest`:
the types each object's `handleField` is given. The last one gets what is left. -/
def handleChain {α : Type} (n : Nat) (types : List α) : List Nat → Option (List (List α))
  | [] => some [types]
  | m :: rest =>
    match split n types [] with
    | some (first, second) => (handleChain m second rest).map (first :: ·)
    | none => none

/-- The chain of `clientInvoke`, which starts at an `IterateFields`. -/
def clientSlices (sig : Signature T) (pieces : List Piece) : Option (List (List (T × Nat))) :=
  (handleChain 0 sig.fields (pieces.map Piece.values)).map List.tail

/-! ## The server -/

/-- The callable passed to `serverInvoke`. -/
inductive ServerStub where
  | call
  | destroy
  | field (argc : Int) (parent : ServerStub)
  | ret (parent : ServerStub)
  | except (parent : ServerStub)

def serverStub (is_destroy : Bool) : List Piece → ServerStub
  | [] => if is_destroy then .destroy else .call
  | piece :: pieces =>
    match piece.field.kind with
    | .exception => .except (serverStub is_destroy pieces)
    | .retval => .ret (serverStub is_destroy pieces)
    | .param => .field piece.field.args (serverStub is_destroy pieces)

namespace ServerStub

/-- `invoke` can return the value of the method. A `PassField` overload may pass on what its callable
returns. -/
def returns (sig : Signature T) : ServerStub → Bool
  | .call => sig.result.isSome
  | .destroy => false
  | .field _ parent => parent.returns sig
  | .ret _ | .except _ => false

/-- The types each level of `invoke` takes for its own field; `none` if it does not compile. -/
def slices (sig : Signature T) : ServerStub → List (T × Nat) → Option (List (List (T × Nat)))
  | .call, [] | .destroy, [] => some []
  | .field argc parent, types =>
    if argc < 0 then none
    else
      match split argc.toNat types [] with
      | some (first, second) => (parent.slices sig second).map (first :: ·)
      | none => none
  | .ret parent, [] =>
    if parent.returns sig then (parent.slices sig []).map (sig.resultType :: ·) else none
  | .except parent, [] => (parent.slices sig []).map ([] :: ·)
  | .call, _ :: _ | .destroy, _ :: _ | .ret _, _ :: _ | .except _, _ :: _ => none

end ServerStub

/-! ## Agreement -/

/-- Both stubs compile: every `Param` exists, every `Split` finds enough types, and the callables
that take no arguments of their own are given none. -/
structure WellTyped (sig : Signature T) (is_destroy : Bool) (pieces : List Piece)
    (client server : List (List (T × Nat))) : Prop where
  named : ∀ piece ∈ pieces, ∀ k ∈ piece.params, k < sig.params.length
  client : clientSlices sig pieces = some client
  server : (serverStub is_destroy pieces).slices sig sig.arguments = some server

/-- What a field is about: the parameters `mpgen` names for it, or the return value. -/
def Piece.slice (sig : Signature T) (piece : Piece) : List (T × Nat) :=
  match piece.field.kind with
  | .retval => sig.resultType
  | _ => piece.named sig

/-- Generator, client and server give every field the same types; the return value gets the result
type and no parameter; and the fields take every parameter once, in order. -/
structure Agree (sig : Signature T) (pieces : List Piece) (client server : List (List (T × Nat))) :
    Prop where
  client : client = pieces.map (Piece.slice sig)
  server : server = pieces.map (Piece.slice sig)
  retval : ∀ piece ∈ pieces, piece.field.kind = .retval →
    sig.result.isSome = true ∧ piece.named sig = []
  cover : (pieces.map (Piece.named sig)).flatten = sig.arguments

theorem split_eq {α : Type} (n : Nat) (types first : List α) :
    split n types first =
      if n ≤ types.length then some (first ++ types.take n, types.drop n) else none := by
  induction n generalizing types first with
  | zero => simp only [split, Nat.zero_le, if_true, List.take_zero, List.append_nil, List.drop_zero]
  | succ n ih =>
    cases types with
    | nil => rfl
    | cons type types =>
      simp only [split, ih, List.length_cons, Nat.add_le_add_iff_right, List.take_succ_cons,
        List.drop_succ_cons, List.append_assoc, List.singleton_append]

theorem split_eq_some {α : Type} {n : Nat} {types first second : List α}
    (h : split n types [] = some (first, second)) :
    n ≤ types.length ∧ first = types.take n ∧ second = types.drop n := by
  rw [split_eq] at h
  split at h
  · next hle =>
    cases h
    exact ⟨hle, List.nil_append _, rfl⟩
  · cases h

/-- A chain hands out all of its types. -/
theorem handleChain_flatten {α : Type} {n : Nat} {types : List α} {rest : List Nat}
    {slices : List (List α)} (h : handleChain n types rest = some slices) :
    slices.flatten = types := by
  induction rest generalizing n types slices with
  | nil =>
    cases h
    exact List.append_nil _
  | cons m rest ih =>
    unfold handleChain at h
    split at h
    · next first second hsplit =>
      obtain ⟨tail, htail, rfl⟩ := Option.map_eq_some_iff.mp h
      obtain ⟨-, rfl, rfl⟩ := split_eq_some hsplit
      rw [List.flatten_cons, ih htail, List.take_append_drop]
    · cases h

/-- A run of positions names a slice of the parameters. -/
theorem filterMap_range' {α : Type} (l : List α) (argc n : Nat) :
    (List.range' argc n).filterMap (l[·]?) = (l.drop argc).take n := by
  induction n generalizing argc with
  | zero => simp only [List.range'_zero, List.filterMap_nil, List.take_zero]
  | succ n ih =>
    rw [List.range'_succ, List.filterMap_cons, ih]
    cases hl : l[argc]? with
    | none =>
      have hle := List.getElem?_eq_none_iff.mp hl
      simp only [List.drop_eq_nil_of_le hle, List.drop_eq_nil_of_le (Nat.le_succ_of_le hle),
        List.take_nil]
    | some a =>
      obtain ⟨hlt, rfl⟩ := List.getElem?_eq_some_iff.mp hl
      rw [List.drop_eq_getElem_cons hlt, List.take_succ_cons]

/-! ## The generator's counter -/

/-- The fields number their arguments one after the other. -/
def Consecutive (argc : Nat) : List Piece → Prop
  | [] => True
  | piece :: pieces => piece.params = List.range' argc piece.field.args.toNat ∧
      Consecutive (argc + piece.field.args.toNat) pieces

theorem consecutive_emit (argc : Nat) (fields : FieldList) : Consecutive argc (emit argc fields) := by
  induction fields generalizing argc with
  | nil => trivial
  | cons field fields ih =>
    unfold emit
    split
    · exact ih argc
    · exact ⟨rfl, ih _⟩

/-- How many parameters the fields name. -/
def total : List Piece → Nat
  | [] => 0
  | piece :: pieces => piece.params.length + total pieces

/-- How many the server's fields take. -/
def taken : List Piece → Nat
  | [] => 0
  | piece :: pieces => (if piece.field.kind = .param then piece.params.length else 0) + taken pieces

theorem total_le {pieces : List Piece} {argc length : Nat} (hc : Consecutive argc pieces)
    (named : ∀ piece ∈ pieces, ∀ k ∈ piece.params, k < length) :
    total pieces = 0 ∨ argc + total pieces ≤ length := by
  induction pieces generalizing argc with
  | nil => exact .inl rfl
  | cons piece pieces ih =>
    obtain ⟨hparams, hrest⟩ := hc
    have htail := ih hrest fun p hp => named p (List.mem_cons_of_mem _ hp)
    have hlen : piece.params.length = piece.field.args.toNat := by
      rw [hparams, List.length_range']
    have hhead : piece.field.args.toNat = 0 ∨ argc + piece.field.args.toNat ≤ length := by
      by_cases hz : piece.field.args.toNat = 0
      · exact .inl hz
      · right
        have := named piece List.mem_cons_self (argc + (piece.field.args.toNat - 1))
          (by rw [hparams, List.mem_range'_1]; omega)
        omega
    simp only [total]
    omega

theorem taken_le (pieces : List Piece) : taken pieces ≤ total pieces := by
  induction pieces with
  | nil => exact Nat.le_refl 0
  | cons piece pieces ih =>
    simp only [taken, total]
    split <;> omega

/-- A field that the server gives no parameters names none. -/
theorem params_eq_nil {pieces : List Piece} (h : total pieces ≤ taken pieces) :
    ∀ piece ∈ pieces, piece.field.kind ≠ .param → piece.params = [] := by
  induction pieces with
  | nil => exact fun _ hp => absurd hp List.not_mem_nil
  | cons piece pieces ih =>
    have htail := taken_le pieces
    simp only [total, taken] at h
    intro p hp hk
    rcases List.mem_cons.mp hp with rfl | hp
    · rw [if_neg hk] at h
      exact List.eq_nil_of_length_eq_zero (by omega)
    · apply ih _ p hp hk
      split at h <;> omega

/-! ## The server's nested callables -/

/-- What a stub needs to compile, level by level. -/
theorem slices_cons {sig : Signature T} {is_destroy : Bool} {piece : Piece} {pieces : List Piece}
    {types : List (T × Nat)} {server : List (List (T × Nat))}
    (h : (serverStub is_destroy (piece :: pieces)).slices sig types = some server) :
    (piece.field.kind = .param ∧ 0 ≤ piece.field.args ∧ piece.field.args.toNat ≤ types.length ∧
      ∃ rest, (serverStub is_destroy pieces).slices sig (types.drop piece.field.args.toNat) = some rest ∧
        server = types.take piece.field.args.toNat :: rest) ∨
    (piece.field.kind = .retval ∧ types = [] ∧ sig.result.isSome = true ∧
      ∃ rest, (serverStub is_destroy pieces).slices sig [] = some rest ∧
        server = sig.resultType :: rest) ∨
    (piece.field.kind = .exception ∧ types = [] ∧
      ∃ rest, (serverStub is_destroy pieces).slices sig [] = some rest ∧ server = [] :: rest) := by
  have hreturns : ∀ stub : ServerStub, stub.returns sig = true → sig.result.isSome = true := by
    intro stub
    induction stub with
    | call => exact id
    | field argc parent ih => exact ih
    | destroy | ret parent | except parent => exact fun hr => nomatch hr
  unfold serverStub at h
  cases hk : piece.field.kind with
  | param =>
    simp only [hk, ServerStub.slices] at h
    left
    split at h
    · cases h
    · next hneg =>
      split at h
      · next first second hsplit =>
        obtain ⟨rest, hrest, rfl⟩ := Option.map_eq_some_iff.mp h
        obtain ⟨hle, rfl, rfl⟩ := split_eq_some hsplit
        exact ⟨rfl, by omega, hle, rest, hrest, rfl⟩
      · cases h
  | retval =>
    simp only [hk] at h
    right; left
    cases types with
    | cons type types => cases h
    | nil =>
      simp only [ServerStub.slices] at h
      split at h
      · next hr =>
        obtain ⟨rest, hrest, rfl⟩ := Option.map_eq_some_iff.mp h
        exact ⟨rfl, rfl, hreturns _ hr, rest, hrest, rfl⟩
      · cases h
  | exception =>
    simp only [hk] at h
    right; right
    cases types with
    | cons type types => cases h
    | nil =>
      obtain ⟨rest, hrest, rfl⟩ := Option.map_eq_some_iff.mp h
      exact ⟨rfl, rfl, rest, hrest, rfl⟩

theorem slices_nil {sig : Signature T} {is_destroy : Bool} {types : List (T × Nat)}
    {server : List (List (T × Nat))}
    (h : (serverStub is_destroy []).slices sig types = some server) : types = [] ∧ server = [] := by
  cases is_destroy with
  | true | false =>
    cases types with
    | nil =>
      cases h
      exact ⟨rfl, rfl⟩
    | cons type types => cases h

theorem length_eq_taken {sig : Signature T} {is_destroy : Bool} {pieces : List Piece} {argc : Nat}
    {types : List (T × Nat)} {server : List (List (T × Nat))} (hc : Consecutive argc pieces)
    (h : (serverStub is_destroy pieces).slices sig types = some server) :
    types.length = taken pieces := by
  induction pieces generalizing argc types server with
  | nil =>
    obtain ⟨rfl, -⟩ := slices_nil h
    rfl
  | cons piece pieces ih =>
    obtain ⟨hparams, hrest⟩ := hc
    simp only [taken]
    rcases slices_cons h with ⟨hk, -, hle, rest, hs, -⟩ | ⟨hk, rfl, -, rest, hs, -⟩ |
      ⟨hk, rfl, rest, hs, -⟩
    · have := ih hrest hs
      rw [List.length_drop] at this
      rw [if_pos hk, hparams, List.length_range']
      omega
    · rw [← ih hrest hs, hk]
      rfl
    · rw [← ih hrest hs, hk]
      rfl

/-! ## The three side by side -/

section Sides

variable {sig : Signature T} {is_destroy : Bool} {pieces : List Piece} {argc : Nat}
  {server : List (List (T × Nat))}

/-- The parameters named from a number on. -/
theorem named_eq {piece : Piece}
    (hparams : piece.params = List.range' argc piece.field.args.toNat) :
    piece.named sig = (sig.arguments.drop argc).take piece.field.args.toNat := by
  unfold Piece.named
  rw [hparams, filterMap_range']

theorem named_nil_of_params {piece : Piece} (h : piece.params = []) : piece.named sig = [] := by
  unfold Piece.named
  rw [h]
  rfl

/-- The server gives every field what the generator names for it. -/
theorem server_eq (hc : Consecutive argc pieces)
    (unused : ∀ piece ∈ pieces, piece.field.kind ≠ .param → piece.params = [])
    (h : (serverStub is_destroy pieces).slices sig (sig.arguments.drop argc) = some server) :
    server = pieces.map (Piece.slice sig) ∧
      (pieces.map (Piece.named sig)).flatten = sig.arguments.drop argc ∧
      ∀ piece ∈ pieces, piece.field.kind = .retval →
        sig.result.isSome = true ∧ piece.named sig = [] := by
  induction pieces generalizing argc server with
  | nil =>
    obtain ⟨hnil, rfl⟩ := slices_nil h
    exact ⟨rfl, hnil.symm, fun _ hp => absurd hp List.not_mem_nil⟩
  | cons piece pieces ih =>
    obtain ⟨hparams, hrest⟩ := hc
    have hunused := fun p hp => unused p (List.mem_cons_of_mem piece hp)
    rcases slices_cons h with ⟨hk, -, hle, rest, hs, rfl⟩ | ⟨hk, hnil, hres, rest, hs, rfl⟩ |
      ⟨hk, hnil, rest, hs, rfl⟩
    · rw [List.drop_drop] at hs
      obtain ⟨rfl, hcover, hret⟩ := ih hrest hunused hs
      refine ⟨?_, ?_, fun p hp hpk => ?_⟩
      · rw [List.map_cons, Piece.slice, hk]
        simp only [named_eq hparams]
      · rw [List.map_cons, List.flatten_cons, hcover, named_eq hparams, ← List.drop_drop,
          List.take_append_drop]
      · rcases List.mem_cons.mp hp with rfl | hp
        · cases hk.symm.trans hpk
        · exact hret p hp hpk
    all_goals
      have hzero : piece.params = [] := unused piece List.mem_cons_self (by rw [hk]; nofun)
      have hargs : piece.field.args.toNat = 0 := by
        have hlen := congrArg List.length hparams
        rw [hzero, List.length_range'] at hlen
        exact hlen.symm
      rw [hargs, Nat.add_zero] at hrest
      rw [← hnil] at hs
      obtain ⟨rfl, hcover, hret⟩ := ih hrest hunused hs
      have hnamed : piece.named sig = [] := named_nil_of_params hzero
    · refine ⟨?_, ?_, fun p hp hpk => ?_⟩
      · rw [List.map_cons, Piece.slice, hk]
      · rw [List.map_cons, List.flatten_cons, hcover, hnamed, List.nil_append]
      · rcases List.mem_cons.mp hp with rfl | hp
        · exact ⟨hres, hnamed⟩
        · exact hret p hp hpk
    · refine ⟨?_, ?_, fun p hp hpk => ?_⟩
      · rw [List.map_cons, Piece.slice, hk]
        simp only [hnamed]
      · rw [List.map_cons, List.flatten_cons, hcover, hnamed, List.nil_append]
      · rcases List.mem_cons.mp hp with rfl | hp
        · cases hk.symm.trans hpk
        · exact hret p hp hpk

/-- The pieces of the return value. -/
def retvals (pieces : List Piece) : List Piece := pieces.filter fun piece => piece.field.kind = .retval

theorem retvals_of_eq {piece : Piece} (hk : piece.field.kind = .retval) :
    retvals (piece :: pieces) = piece :: retvals pieces := by
  unfold retvals
  rw [List.filter_cons, if_pos (by rw [hk]; rfl)]

theorem retvals_of_ne {piece : Piece} (hk : piece.field.kind ≠ .retval) :
    retvals (piece :: pieces) = retvals pieces := by
  unfold retvals
  rw [List.filter_cons, if_neg (by simpa only [decide_eq_true_eq] using hk)]

theorem retvals_nil : retvals [] = [] := rfl

theorem retvals_eq_nil : retvals pieces = [] ↔ ∀ piece ∈ pieces, piece.field.kind ≠ .retval := by
  simp only [retvals, List.filter_eq_nil_iff, decide_eq_true_eq, ne_eq]

/-- The client's chain does too, when what follows the parameters is what the return value takes. -/
theorem chain_eq {piece : Piece} {pending : List (T × Nat)} (hc : Consecutive argc (piece :: pieces))
    (unused : ∀ p ∈ piece :: pieces, p.field.kind ≠ .param → p.params = [])
    (h : (serverStub is_destroy (piece :: pieces)).slices sig (sig.arguments.drop argc) = some server)
    (unique : (retvals (piece :: pieces)).length ≤ 1)
    (hpending : pending = if retvals (piece :: pieces) = [] then [] else sig.resultType) :
    handleChain piece.values (sig.arguments.drop argc ++ pending) (pieces.map Piece.values) =
      some ((piece :: pieces).map (Piece.slice sig)) := by
  induction pieces generalizing argc piece pending server with
  | nil =>
    obtain ⟨hparams, -⟩ := hc
    rcases slices_cons h with ⟨hk, -, -, rest, hs, -⟩ | ⟨hk, hnil, -⟩ | ⟨hk, hnil, -⟩
    · have hend := List.drop_eq_nil_iff.mp (slices_nil hs).1
      have hslice : piece.slice sig = sig.arguments.drop argc := by
        rw [Piece.slice, hk]
        simp only [named_eq hparams, List.take_of_length_le hend]
      rw [hpending, retvals_of_ne (by rw [hk]; nofun), retvals_nil, if_pos rfl]
      simp only [handleChain, List.map_nil, List.map_cons, hslice, List.append_nil]
    · rw [hpending, retvals_of_eq hk, if_neg (List.cons_ne_nil _ _), hnil]
      simp only [handleChain, List.map_nil, List.map_cons, Piece.slice, hk, List.nil_append]
    · have hnamed : piece.named sig = [] :=
        named_nil_of_params (unused piece List.mem_cons_self (by rw [hk]; nofun))
      rw [hpending, retvals_of_ne (by rw [hk]; nofun), retvals_nil, if_pos rfl, hnil]
      simp only [handleChain, List.map_nil, List.map_cons, Piece.slice, hk, hnamed, List.append_nil]
  | cons next pieces ih =>
    obtain ⟨hparams, hrest⟩ := hc
    have hunused := fun p hp => unused p (List.mem_cons_of_mem piece hp)
    have hlen : piece.params.length = piece.field.args.toNat := by
      rw [hparams, List.length_range']
    rw [List.map_cons]
    unfold handleChain
    rw [split_eq, List.nil_append]
    rcases slices_cons h with ⟨hk, -, hle, rest, hs, -⟩ | ⟨hk, hnil, hres, rest, hs, -⟩ |
      ⟨hk, hnil, rest, hs, -⟩
    · have hvalues : piece.values = piece.field.args.toNat := by
        rw [Piece.values, hk]
        exact hlen
      rw [List.drop_drop] at hs
      rw [retvals_of_ne (by rw [hk]; nofun)] at unique hpending
      rw [hvalues, if_pos (by rw [List.length_append]; omega), List.take_append_of_le_length hle,
        List.drop_append_of_le_length hle, List.drop_drop]
      simp only [ih hrest hunused hs unique hpending, Option.map_some]
      rw [List.map_cons (a := piece), Piece.slice, hk]
      simp only [named_eq hparams]
    all_goals
      have hzero : piece.params = [] := unused piece List.mem_cons_self (by rw [hk]; nofun)
      rw [← hlen, hzero, List.length_nil, Nat.add_zero] at hrest
      rw [← hnil] at hs
    · rw [retvals_of_eq hk] at unique hpending
      have hother : retvals (next :: pieces) = [] :=
        List.eq_nil_of_length_eq_zero (Nat.le_zero.mp (Nat.le_of_succ_le_succ unique))
      have hpend : pending = sig.resultType := by rw [hpending, if_neg (List.cons_ne_nil _ _)]
      have hvalues : piece.values = sig.resultType.length := by
        obtain ⟨result, hresult⟩ := Option.isSome_iff_exists.mp hres
        simp only [Piece.values, hk, Signature.resultType, hresult, Option.map_some,
          Option.toList_some, List.length_singleton]
      have htail : handleChain next.values (sig.arguments.drop argc ++ [])
          (pieces.map Piece.values) = some ((next :: pieces).map (Piece.slice sig)) :=
        ih hrest hunused hs (by rw [hother]; exact Nat.zero_le 1) (by rw [if_pos hother])
      rw [hnil] at htail
      rw [hpend, hnil, hvalues, List.nil_append, if_pos (Nat.le_refl _), List.take_length,
        List.drop_length]
      simp only [List.nil_append] at htail
      simp only [htail, Option.map_some]
      rw [List.map_cons (a := piece), Piece.slice, hk]
    · have hvalues : piece.values = 0 := by rw [Piece.values, hk]
      rw [retvals_of_ne (by rw [hk]; nofun)] at unique hpending
      rw [hvalues, if_pos (Nat.zero_le _), List.take_zero, List.drop_zero]
      simp only [ih hrest hunused hs unique hpending, Option.map_some]
      rw [List.map_cons (a := piece), Piece.slice, hk]
      simp only [named_nil_of_params hzero]

/-- Without a return value field the slices are what the fields name. -/
theorem map_slice (h : retvals pieces = []) :
    pieces.map (Piece.slice sig) = pieces.map (Piece.named sig) := by
  apply List.map_congr_left
  intro piece hp
  unfold Piece.slice
  split
  · next hk => exact absurd hk (retvals_eq_nil.mp h piece hp)
  · rfl

/-- A client that gives each field its slice has so given all it has. -/
theorem fields_eq_of_client {slices : List (List (T × Nat))} (hne : pieces ≠ [])
    (h : handleChain 0 sig.fields (pieces.map Piece.values) = some slices)
    (client : slices.tail = pieces.map (Piece.slice sig)) :
    (pieces.map (Piece.slice sig)).flatten = sig.fields := by
  have hflat := handleChain_flatten h
  cases pieces with
  | nil => exact absurd rfl hne
  | cons piece pieces =>
    obtain ⟨tail, htail, rfl⟩ := by
      simpa only [List.map_cons, handleChain, split, Option.map_eq_some_iff] using h
    rw [List.flatten_cons, List.nil_append] at hflat
    rw [← client]
    exact hflat

/-- The client does give each field its slice, unless the result type is left for one that does not
take it. -/
theorem client_eq {slices : List (List (T × Nat))} (hc : Consecutive 0 pieces)
    (unused : ∀ piece ∈ pieces, piece.field.kind ≠ .param → piece.params = [])
    (built : (serverStub is_destroy pieces).slices sig (sig.arguments.drop 0) = some server)
    (unique : (retvals pieces).length ≤ 1)
    (takes : sig.result = none ∨ retvals pieces ≠ [] ∨ pieces = [])
    (h : handleChain 0 sig.fields (pieces.map Piece.values) = some slices) :
    slices.tail = pieces.map (Piece.slice sig) := by
  cases pieces with
  | nil =>
    simp only [List.map_nil, handleChain, Option.some.injEq] at h
    rw [← h]
    rfl
  | cons piece pieces =>
    have hpending : sig.resultType =
        if retvals (piece :: pieces) = [] then [] else sig.resultType := by
      split
      · next hnil =>
        have hvoid := takes.resolve_right (by simp only [hnil, ne_eq, not_true_eq_false,
          reduceCtorEq, or_self, not_false_eq_true])
        rw [Signature.resultType, hvoid]
        rfl
      · rfl
    have hchain := chain_eq hc unused built unique hpending
    rw [List.drop_zero] at hchain
    simp only [List.map_cons, handleChain, split, Signature.fields, hchain, Option.map_some,
      Option.some.injEq] at h
    rw [← h]
    rfl

end Sides

/-- At most one field is written as a return value. -/
theorem retvals_emit_le (argc : Nat) (fields : FieldList) :
    (retvals (emit argc fields)).length ≤ (fields.filter (·.retval)).length := by
  induction fields generalizing argc with
  | nil => exact Nat.le_refl 0
  | cons field fields ih =>
    unfold emit
    split
    · apply Nat.le_trans (ih argc)
      exact ((List.sublist_cons_self field fields).filter _).length_le
    · have htail := ih (argc + field.args.toNat)
      unfold retvals at htail ⊢
      rw [List.filter_cons, List.filter_cons]
      split
      · next hk =>
        have hret : field.retval = true := by
          simp only [decide_eq_true_eq, Field.kind] at hk
          split at hk
          · cases hk
          · split at hk
            · assumption
            · cases hk
        rw [if_pos hret]
        exact Nat.succ_le_succ htail
      · split
        · exact Nat.le_succ_of_le htail
        · exact htail

/-- Where both stubs of a method compile, generator, client and server agree on the arguments of every
field exactly if the method returns `void`, or has a return value field, or has no fields at all. -/
theorem slices_agree_iff (params results : List SchemaField) (sig : Signature T)
    (is_destroy : Bool) (client server : List (List (T × Nat)))
    (h : WellTyped sig is_destroy (emit 0 (.ofMethod params results)) client server) :
    Agree sig (emit 0 (.ofMethod params results)) client server ↔
      sig.result = none ∨ retvals (emit 0 (.ofMethod params results)) ≠ [] ∨
        emit 0 (.ofMethod params results) = [] := by
  have hc := consecutive_emit 0 (.ofMethod params results)
  have unique := Nat.le_trans (retvals_emit_le 0 _) (retval_unique (named_ofMethod params results))
  generalize emit 0 (.ofMethod params results) = pieces at h hc unique
  have htotal := total_le hc h.named
  have htaken := length_eq_taken hc h.server
  rw [Signature.arguments, List.length_zipIdx] at htaken
  have unused : ∀ piece ∈ pieces, piece.field.kind ≠ .param → piece.params = [] :=
    params_eq_nil (by omega)
  have hserver := h.server
  rw [← List.drop_zero (l := sig.arguments)] at hserver
  obtain ⟨rfl, hcover, hretval⟩ := server_eq hc unused hserver
  rw [List.drop_zero] at hcover
  obtain ⟨slices, hslices, rfl⟩ := Option.map_eq_some_iff.mp h.client
  constructor
  · rintro ⟨hclient, -, -, -⟩
    by_contra hn
    simp only [not_or, not_not] at hn
    obtain ⟨hsome, hnone, hne⟩ := hn
    obtain ⟨result, hresult⟩ := Option.ne_none_iff_exists'.mp hsome
    -- the chain hands out the result type too, which no field takes
    have hflat := fields_eq_of_client hne hslices hclient
    rw [map_slice hnone, hcover, Signature.fields] at hflat
    have hlen := congrArg List.length hflat
    simp only [List.length_append, Signature.resultType, hresult, Option.map_some,
      Option.toList_some, List.length_singleton] at hlen
    omega
  · intro hcase
    exact ⟨client_eq hc unused hserver unique hcase hslices, rfl, hretval, hcover⟩

/-- A schema field without annotations. -/
def plainField (name : String) : SchemaField where
  name := name
  skip := false
  exception := none
  count := none
  typeCount := none
  boxed := false

/-- A context, an argument, an exception and a return value, for a method of one parameter. -/
theorem slices_agree_with_retval :
    Agree (⟨["int"], some "bool"⟩ : Signature String)
      (emit 0 (.ofMethod [{ plainField "context" with typeCount := some 0 }, plainField "arg"]
        [{ plainField "error" with exception := some "FooError" }, plainField "result"]))
      [[], [("int", 0)], [], [("bool", 1)]] [[], [("int", 0)], [], [("bool", 1)]] := by
  apply (slices_agree_iff _ _ _ false _ _ ⟨by decide, by decide, by decide⟩).mpr
  exact .inr (.inl (by decide))

/-- A method that returns a value which the schema leaves out: the client gives its one field, which
takes no argument, the type of that value. -/
theorem slices_disagree_without_retval :
    let pieces := emit 0 (.ofMethod [{ plainField "marker" with typeCount := some 0 }] [])
    let sig : Signature String := ⟨[], some "int"⟩
    WellTyped sig false pieces [[("int", 0)]] [[]] ∧ ¬ Agree sig pieces [[("int", 0)]] [[]] := by
  refine ⟨⟨by decide, by decide, by decide⟩, fun h => ?_⟩
  cases h.client.trans h.server.symm

end Multiprocess.Stub
