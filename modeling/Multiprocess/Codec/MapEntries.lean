import Multiprocess.Codec.RoundTrip

/-!
# The entries of a map

What `emplace` and an update behind a reference to an entry do to the nodes of a `std::map`, with
any strict weak order of its keys. `Tree.readOver` is what one pair does to the map when values are
merged by a function `g`: a new key is inserted, and the entry of a key that is there gets its value
and the new one merged. `Tree.readAll` does so for a list of pairs, and `Tree.emplaceAll` is one
`emplace` after the other.

`Holds` is the invariant of the loop over the pairs: each entry holds the values that came with its
key, merged in order. `readAll_eq_emplaceAll_iff` reads off it for which lists the two agree. Whether
a reader of some value type merges by a `g`, and by which, is not decided here.
-/

namespace Multiprocess.Codec

variable {α κ : Type}

variable {o : StrictOrder κ}

/-- Being equivalent is transitive. -/
theorem StrictOrder.equiv_trans (o : StrictOrder κ) {a b c : κ} (hab : o.equiv a b = true)
    (hbc : o.equiv b c = true) : o.equiv a c = true := by
  simp only [StrictOrder.equiv, Bool.and_eq_true, Bool.not_eq_true'] at hab hbc ⊢
  exact ⟨o.weak a b c hab.1 hab.2 hbc.1 hbc.2, o.weak c b a hbc.2 hbc.1 hab.2 hab.1⟩

theorem StrictOrder.equiv_comm (o : StrictOrder κ) (a b : κ) : o.equiv a b = o.equiv b a :=
  Bool.and_comm _ _

namespace Tree

variable (t : Tree (o.on (Pair.first (α := α))))

/-- Two entries of a map come one before the other. -/
theorem eq_or_less {e e' : Pair κ α} (he : e ∈ t.elems) (he' : e' ∈ t.elems) :
    e = e' ∨ o.less e.first e'.first = true ∨ o.less e'.first e.first = true := by
  obtain ⟨l, hl⟩ := t
  simp only at he he'
  induction hl with
  | nil => cases he
  | cons hb _ ih =>
    rcases List.mem_cons.mp he with rfl | hrest
    · rcases List.mem_cons.mp he' with rfl | hrest'
      · exact .inl rfl
      · exact .inr (.inl (hb e' hrest'))
    · rcases List.mem_cons.mp he' with rfl | hrest'
      · exact .inr (.inr (hb e hrest))
      · exact ih hrest hrest'

/-- A key has one entry. -/
theorem eq_of_equiv {k : κ} {e e' : Pair κ α} (he : e ∈ t.elems)
    (he' : e' ∈ t.elems) (hk : o.equiv e.first k = true) (hk' : o.equiv e'.first k = true) :
    e = e' := by
  have hee' : o.equiv e.first e'.first = true :=
    o.equiv_trans hk (by rw [o.equiv_comm]; exact hk')
  rcases t.eq_or_less he he' with heq | hless | hless
  · exact heq
  · rw [o.equiv_of_less hless] at hee'
    cases hee'
  · rw [o.equiv_comm, o.equiv_of_less hless] at hee'
    cases hee'

/-- Nothing is inserted next to an entry with an equivalent key. -/
theorem insert_equiv {l : List (Pair κ α)} (hl : l.Pairwise fun a b => o.less a.first b.first = true)
    {e p : Pair κ α} (he : e ∈ l) (hp : o.equiv e.first p.first = true) :
    insert (o.on Pair.first).less p l = l := by
  have hno : o.less p.first e.first = false ∧ o.less e.first p.first = false := by
    simpa only [StrictOrder.equiv, Bool.and_eq_true, Bool.not_eq_true', and_comm] using hp
  induction hl with
  | nil => cases he
  | @cons b bs hb _ ih =>
    by_cases hpb : o.less p.first b.first = true
    · rcases List.mem_cons.mp he with rfl | he
      · rw [hno.1] at hpb
        cases hpb
      · have hpe := o.trans _ _ _ hpb (hb e he)
        rw [hno.1] at hpe
        cases hpe
    · by_cases hbp : o.less b.first p.first = true
      · rcases List.mem_cons.mp he with rfl | he
        · rw [hno.2] at hbp
          cases hbp
        · refine ((if_neg hpb).trans (if_pos hbp)).trans ?_
          rw [ih he]
      · exact (if_neg hpb).trans (if_neg hbp)

/-- `emplace` drops its arguments when the key is there. -/
theorem emplace_of_equiv {e p : Pair κ α} (he : e ∈ t.elems)
    (hp : o.equiv e.first p.first = true) : t.emplace p = t :=
  Tree.ext (insert_equiv t.sorted he hp)

/-- Giving an entry the value it has changes nothing. -/
theorem setSecond_self {e : Pair κ α} {k : κ} (he : e ∈ t.elems)
    (hk : o.equiv e.first k = true) : t.setSecond k e.second = t := by
  refine Tree.ext ((List.map_congr_left fun e' he' => ?_).trans (List.map_id t.elems))
  split
  · next hk' =>
    rw [t.eq_of_equiv he' he hk' hk]
    rfl
  · rfl

/-- Of two values given to a key, the second one stays. -/
theorem setSecond_setSecond (k : κ) (x y : α) :
    (t.setSecond k x).setSecond k y = t.setSecond k y := by
  refine Tree.ext ?_
  show (t.elems.map _).map _ = t.elems.map _
  rw [List.map_map]
  refine List.map_congr_left fun e _ => ?_
  show (if o.equiv (ite _ _ _ : Pair κ α).first k = true then _ else _) = _
  split <;> simp_all

/-- The entry that is found keeps its key when it gets another value. -/
theorem find_setSecond {e : Pair κ α} {k : κ}
    (hfind : t.elems.find? (fun e => o.equiv e.first k) = some e) (x : α) :
    (t.setSecond k x).elems.find? (fun e => o.equiv e.first k) = some { e with second := x } := by
  have hk : o.equiv e.first k = true := by simpa using List.find?_some hfind
  have hfirst : ((fun e : Pair κ α => o.equiv e.first k) ∘ fun e : Pair κ α =>
      if o.equiv e.first k then { e with second := x } else e) = fun e => o.equiv e.first k := by
    funext e
    show o.equiv (ite _ _ _ : Pair κ α).first k = _
    split <;> rfl
  show (t.elems.map _).find? _ = _
  rw [List.find?_map, hfirst, hfind, Option.map_some, if_pos hk]

/-- What reading a pair does to the map: a new key is inserted, and the entry of a key that is
there gets the two values merged. -/
def readOver (g : α → α → α) (t : Tree (o.on (Pair.first (α := α)))) (p : Pair κ α) :
    Tree (o.on (Pair.first (α := α))) :=
  match t.elems.find? fun e => o.equiv e.first p.first with
  | none => t.emplace p
  | some e => t.setSecond p.first (g e.second p.second)

/-- What the keys and the values of the map have, they still have after a pair that has it, if
merging keeps it. -/
theorem readOver_forall {P : κ → Prop} {Q : α → Prop} {g : α → α → α}
    (hg : ∀ a b, Q a → Q b → Q (g a b)) {p : Pair κ α}
    (ht : ∀ e ∈ t.elems, P e.first ∧ Q e.second) (hp : P p.first ∧ Q p.second) :
    ∀ e ∈ (t.readOver g p).elems, P e.first ∧ Q e.second := by
  intro e he
  unfold readOver at he
  split at he
  · rcases mem_insert he with rfl | he
    · exact hp
    · exact ht e he
  · next e₀ hfind =>
    obtain ⟨e', he', rfl⟩ := List.mem_map.mp he
    split
    · exact ⟨(ht e' he').1, hg _ _ (ht e₀ (List.mem_of_find?_eq_some hfind)).2 hp.2⟩
    · exact ht e' he'

/-- `emplace` of one pair after the other. -/
def emplaceAll (o : StrictOrder κ) (pairs : List (Pair κ α)) :
    Tree (o.on (Pair.first (α := α))) :=
  pairs.foldl Tree.emplace ⟨[], .nil⟩

/-- The reader's loop over the pairs. -/
def readAll (o : StrictOrder κ) (g : α → α → α) (pairs : List (Pair κ α)) :
    Tree (o.on (Pair.first (α := α))) :=
  pairs.foldl (readOver g) ⟨[], .nil⟩

/-- `emplace` is reading over with a merge that keeps the value that is there. -/
theorem emplace_eq_readOver (p : Pair κ α) :
    t.emplace p = t.readOver (fun old _ => old) p := by
  unfold readOver
  split
  · rfl
  · next e hfind =>
    have he := List.mem_of_find?_eq_some hfind
    have hk : o.equiv e.first p.first = true := by simpa using List.find?_some hfind
    rw [t.emplace_of_equiv he hk, t.setSecond_self he hk]

/-- Where a pair is inserted depends on its key alone. -/
theorem map_insert (o : StrictOrder κ) (p : Pair κ α) (l : List (Pair κ α)) :
    (insert (o.on Pair.first).less p l).map Pair.first = insert o.less p.first (l.map Pair.first) := by
  induction l with
  | nil => rfl
  | cons b bs ih =>
    simp only [insert, StrictOrder.on, List.map_cons]
    simp only [StrictOrder.on] at ih
    by_cases hpb : o.less p.first b.first = true
    · simp only [hpb, if_true, List.map_cons]
    · by_cases hbp : o.less b.first p.first = true
      · simp only [hpb, hbp, if_false, if_true, Bool.false_eq_true, List.map_cons, ih]
      · simp only [hpb, hbp, if_false, Bool.false_eq_true, List.map_cons]

/-- The keys do not depend on the values. -/
theorem keys_readOver (g g' : α → α → α) {t t' : Tree (o.on (Pair.first (α := α)))}
    (same : t.elems.map Pair.first = t'.elems.map Pair.first) (p : Pair κ α) :
    (t.readOver g p).elems.map Pair.first = (t'.readOver g' p).elems.map Pair.first := by
  have hkeys : ∀ (g : α → α → α) (t : Tree (o.on (Pair.first (α := α)))),
      (t.readOver g p).elems.map Pair.first =
        if ((t.elems.map Pair.first).find? fun k => o.equiv k p.first) = none then
          insert o.less p.first (t.elems.map Pair.first)
        else t.elems.map Pair.first := by
    intro g t
    have hmap : ((t.elems.map Pair.first).find? fun k => o.equiv k p.first) =
        (t.elems.find? fun e => o.equiv e.first p.first).map Pair.first := List.find?_map ..
    rw [hmap, readOver]
    cases hfind : t.elems.find? fun e => o.equiv e.first p.first with
    | none =>
      rw [Option.map_none, if_pos rfl]
      exact map_insert o p t.elems
    | some e =>
      rw [Option.map_some, if_neg nofun]
      show (t.elems.map _).map _ = _
      rw [List.map_map]
      refine List.map_congr_left fun e' _ => ?_
      show (ite _ _ _ : Pair κ α).first = _
      split <;> rfl
  rw [hkeys, hkeys, same]

/-- Two readers that merge differently leave the same keys. -/
theorem keys_foldl (g g' : α → α → α) (pairs : List (Pair κ α))
    {t t' : Tree (o.on (Pair.first (α := α)))}
    (same : t.elems.map Pair.first = t'.elems.map Pair.first) :
    (pairs.foldl (readOver g) t).elems.map Pair.first =
      (pairs.foldl (readOver g') t').elems.map Pair.first := by
  induction pairs generalizing t t' with
  | nil => exact same
  | cons p pairs ih => exact ih (keys_readOver g g' same p)

end Tree

theorem Pair.ext {p q : Pair κ α} (first : p.first = q.first) (second : p.second = q.second) :
    p = q := by
  cases p
  cases q
  cases first
  cases second
  rfl

/-- The values that came with a key, in order. -/
def valuesOf (o : StrictOrder κ) (pairs : List (Pair κ α)) (k : κ) : List α :=
  (pairs.filter fun p => o.equiv p.first k).map Pair.second

/-- A map that has read so many pairs holds for each of their keys the values merged in order. -/
structure Holds (o : StrictOrder κ) (g : α → α → α) (pairs : List (Pair κ α))
    (t : Tree (o.on (Pair.first (α := α)))) : Prop where
  merged : ∀ e ∈ t.elems, ∃ v vs, valuesOf o pairs e.first = v :: vs ∧ e.second = vs.foldl g v
  keys : ∀ p ∈ pairs, ∃ e ∈ t.elems, o.equiv e.first p.first = true

/-- One more pair adds its value to those of its key. -/
theorem valuesOf_concat (o : StrictOrder κ) (pairs : List (Pair κ α)) (p : Pair κ α) (k : κ) :
    valuesOf o (pairs ++ [p]) k =
      if o.equiv p.first k then valuesOf o pairs k ++ [p.second] else valuesOf o pairs k := by
  unfold valuesOf
  rw [List.filter_append, List.map_append]
  by_cases h : o.equiv p.first k = true
  · simp only [List.filter_cons, List.filter_nil, h, if_true, List.map_cons, List.map_nil]
  · simp only [List.filter_cons, List.filter_nil, h, if_false, List.map_nil, List.append_nil,
      Bool.false_eq_true]

theorem mem_insert_of_mem {less : α → α → Bool} {a x : α} {l : List α} (h : x ∈ l) :
    x ∈ Tree.insert less a l := by
  induction l with
  | nil => cases h
  | cons b bs ih =>
    unfold Tree.insert
    split
    · exact .tail _ h
    · split
      · rcases List.mem_cons.mp h with rfl | h
        · exact .head _
        · exact .tail _ (ih h)
      · exact h

/-- One more pair. -/
theorem Holds.readOver {g : α → α → α} {pairs : List (Pair κ α)}
    {t : Tree (o.on (Pair.first (α := α)))} (h : Holds o g pairs t) (p : Pair κ α) :
    Holds o g (pairs ++ [p]) (t.readOver g p) := by
  unfold Tree.readOver
  cases hfind : t.elems.find? fun e => o.equiv e.first p.first with
  | none =>
    have hnew : ∀ e ∈ t.elems, o.equiv e.first p.first = false := fun e he => by
      simpa using List.find?_eq_none.mp hfind e he
    obtain ⟨before, after, hsplit, hinsert⟩ := insert_new o hnew
    have helems : (t.emplace p).elems = before ++ p :: after := hinsert p.second
    have hmem : ∀ e ∈ (t.emplace p).elems, e = p ∨ e ∈ t.elems := fun e he => Tree.mem_insert he
    refine ⟨fun e he => ?_, fun q hq => ?_⟩
    · rcases hmem e he with rfl | he
      · have hnone : valuesOf o pairs e.first = [] := by
          refine List.map_eq_nil_iff.mpr (List.filter_eq_nil_iff.mpr fun q hq hqe => ?_)
          obtain ⟨e', he', hq'⟩ := h.keys q hq
          have hboth := o.equiv_trans hq' hqe
          rw [hnew e' he'] at hboth
          cases hboth
        refine ⟨e.second, [], ?_, rfl⟩
        rw [valuesOf_concat, o.equiv_self, hnone]
        rfl
      · obtain ⟨v, vs, hvalues, hsecond⟩ := h.merged e he
        refine ⟨v, vs, ?_, hsecond⟩
        rw [valuesOf_concat, o.equiv_comm, hnew e he]
        exact hvalues
    · rcases List.mem_append.mp hq with hq | hq
      · obtain ⟨e, he, heq⟩ := h.keys q hq
        exact ⟨e, mem_insert_of_mem he, heq⟩
      · rw [List.mem_singleton.mp hq]
        refine ⟨p, ?_, o.equiv_self _⟩
        rw [helems]
        exact List.mem_append_right _ (.head _)
  | some e₀ =>
    have he₀ := List.mem_of_find?_eq_some hfind
    have hk₀ : o.equiv e₀.first p.first = true := by simpa using List.find?_some hfind
    refine ⟨fun e he => ?_, fun q hq => ?_⟩
    · obtain ⟨e', he', rfl⟩ := List.mem_map.mp he
      obtain ⟨v, vs, hvalues, hsecond⟩ := h.merged e' he'
      split
      · next hk =>
        obtain rfl := t.eq_of_equiv he' he₀ hk hk₀
        refine ⟨v, vs ++ [p.second], ?_, ?_⟩
        · rw [valuesOf_concat, o.equiv_comm, hk, hvalues]
          rfl
        · rw [List.foldl_append, ← hsecond]
          rfl
      · next hk =>
        refine ⟨v, vs, ?_, hsecond⟩
        rw [valuesOf_concat, o.equiv_comm, if_neg hk, hvalues]
    · have hset : ∀ e ∈ t.elems, ∃ e' ∈ (t.setSecond p.first (g e₀.second p.second)).elems,
          e'.first = e.first := by
        intro e he
        refine ⟨_, List.mem_map_of_mem he, ?_⟩
        split <;> rfl
      rcases List.mem_append.mp hq with hq | hq
      · obtain ⟨e, he, heq⟩ := h.keys q hq
        obtain ⟨e', he', hfirst⟩ := hset e he
        exact ⟨e', he', hfirst ▸ heq⟩
      · obtain ⟨e', he', hfirst⟩ := hset e₀ he₀
        rw [List.mem_singleton.mp hq]
        exact ⟨e', he', hfirst ▸ hk₀⟩

/-- All of them. -/
theorem holds_foldl {g : α → α → α} {before : List (Pair κ α)}
    {t : Tree (o.on (Pair.first (α := α)))} (h : Holds o g before t) (pairs : List (Pair κ α)) :
    Holds o g (before ++ pairs) (pairs.foldl (Tree.readOver g) t) := by
  induction pairs generalizing before t with
  | nil => rwa [List.append_nil]
  | cons p pairs ih =>
    have hrest := ih (h.readOver p)
    rwa [List.append_assoc, List.singleton_append] at hrest

theorem holds_nil (o : StrictOrder κ) (g : α → α → α) : Holds o g [] ⟨[], .nil⟩ := ⟨nofun, nofun⟩

/-- Equivalent keys came with the same values. -/
theorem valuesOf_congr (pairs : List (Pair κ α)) {k k' : κ}
    (h : o.equiv k k' = true) : valuesOf o pairs k = valuesOf o pairs k' := by
  have hback : o.equiv k' k = true := by rwa [o.equiv_comm]
  have hiff : ∀ p ∈ pairs, o.equiv p.first k = o.equiv p.first k' := fun p _ =>
    Bool.eq_iff_iff.mpr ⟨fun hp => o.equiv_trans hp h, fun hp => o.equiv_trans hp hback⟩
  rw [valuesOf, valuesOf, List.filter_congr hiff]

/-- The map is that of the first occurrences exactly if no key's later values change the first. -/
theorem readAll_eq_emplaceAll_iff (g : α → α → α) (pairs : List (Pair κ α)) :
    Tree.readAll o g pairs = Tree.emplaceAll o pairs ↔
      ∀ k v vs, valuesOf o pairs k = v :: vs → vs.foldl g v = v := by
  have hfirst : Tree.emplaceAll o pairs = Tree.readAll o (fun old _ => old) pairs := by
    have hstep : Tree.emplace = Tree.readOver (o := o) (fun (old : α) _ => old) :=
      funext fun t => funext fun p => t.emplace_eq_readOver p
    rw [Tree.emplaceAll, hstep, Tree.readAll]
  have hkeep : ∀ (v : α) (vs : List α), vs.foldl (fun old _ => old) v = v := by
    intro v vs
    induction vs with
    | nil => rfl
    | cons w vs ih => exact ih
  have hmerged : Holds o g pairs (Tree.readAll o g pairs) :=
    holds_foldl (holds_nil o g) pairs
  have hplain : Holds o (fun old _ => old) pairs (Tree.emplaceAll o pairs) :=
    hfirst ▸ holds_foldl (holds_nil o _) pairs
  constructor
  · intro heq k v vs hvalues
    obtain ⟨p, hp, hpk⟩ : ∃ p ∈ pairs, o.equiv p.first k = true := by
      by_contra hnone
      have hnil : valuesOf o pairs k = [] := by
        refine List.map_eq_nil_iff.mpr (List.filter_eq_nil_iff.mpr fun p hp hpk => ?_)
        exact hnone ⟨p, hp, hpk⟩
      rw [hnil] at hvalues
      cases hvalues
    obtain ⟨e, he, hep⟩ := hmerged.keys p hp
    have hsame := valuesOf_congr pairs (o.equiv_trans hep hpk)
    obtain ⟨w, ws, hw, hsecond⟩ := hmerged.merged e he
    obtain ⟨w', ws', hw', hsecond'⟩ := hplain.merged e (heq ▸ he)
    rw [hsame, hvalues] at hw hw'
    obtain ⟨rfl, rfl⟩ := List.cons.inj hw
    obtain ⟨rfl, rfl⟩ := List.cons.inj hw'
    rw [← hsecond, hsecond', hkeep]
  · intro h
    have hkeys : (Tree.readAll o g pairs).elems.map Pair.first =
        (Tree.emplaceAll o pairs).elems.map Pair.first := by
      rw [hfirst]
      exact Tree.keys_foldl g _ pairs rfl
    refine Tree.ext (List.ext_getElem (by simpa using congrArg List.length hkeys) ?_)
    intro i hi hi'
    have hkey := List.getElem_of_eq hkeys (by simpa using hi)
    rw [List.getElem_map, List.getElem_map] at hkey
    obtain ⟨v, vs, hv, hsecond⟩ := hmerged.merged _ (List.getElem_mem hi)
    obtain ⟨w, ws, hw, hsecond'⟩ := hplain.merged _ (List.getElem_mem hi')
    rw [hkey] at hv
    rw [hkeep] at hsecond'
    obtain ⟨rfl, rfl⟩ := List.cons.inj (hv.symm.trans hw)
    exact Pair.ext hkey (hsecond.trans ((h _ v vs hv).trans hsecond'.symm))

end Multiprocess.Codec
