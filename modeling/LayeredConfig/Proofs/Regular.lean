import LayeredConfig.Encoding
import LayeredConfig.Proofs.Everywhere
import LayeredConfig.Proofs.Rounding
import LayeredConfig.Proofs.Run

/-!
# What readers give

Whatever the format, a document that is read holds no infinite float and nothing that is not a number, and no
mapping of it repeats a name (`FileFormat.regular_of_read`). Mappings are built entry by entry. Floats are
replaced by null unless they are finite, except that a JSON number is a significand below `2 ^ 64` scaled by a
power of ten, of which only the multiplication is checked for its result.
-/

namespace LayeredConfig

namespace Document

variable {d : Document} {x : Binary64}

/-- No float is infinite or not a number, and the names of every mapping are distinct. -/
def Regular : Document → Prop := Everywhere (fun leaf => ∀ x, leaf = .float x → x.isFinite) List.Nodup

theorem regular_float : (float x).Regular ↔ x.isFinite := by simp [Regular, Everywhere]

theorem regular_null : null.Regular := by simp [Regular, Everywhere]

theorem regular_bool (b : Bool) : (bool b).Regular := by simp [Regular, Everywhere]

theorem regular_int (i : Int64) : (int i).Regular := by simp [Regular, Everywhere]

theorem regular_large (n : UInt64) : (large n).Regular := by simp [Regular, Everywhere]

theorem regular_text (s : String) : (text s).Regular := by simp [Regular, Everywhere]

theorem regular_list {items : List Document} : (list items).Regular ↔ ∀ d ∈ items, d.Regular := everywhere_list

theorem regular_mapping {fields : List (String × Document)} :
    (mapping fields).Regular ↔ Ordered.Distinct fields ∧ ∀ field ∈ fields, field.2.Regular := everywhere_mapping

/-- Entries put in one after the other make a mapping without repeated names. -/
theorem regular_ofList {fields : List (String × Document)} (h : ∀ field ∈ fields, field.2.Regular) :
    (mapping (Ordered.ofList fields)).Regular :=
  regular_mapping.mpr ⟨Ordered.distinct_ofList fields, fun field hfield => h field (Ordered.mem_ofList hfield)⟩

theorem regular_ofFloat (x : Binary64) : (ofFloat x).Regular := by
  unfold ofFloat
  split
  · next h => exact regular_float.mpr h
  · exact regular_null

theorem regular_of_ofInt? {i : Int} (h : ofInt? i = some d) : d.Regular := by
  unfold ofInt? at h
  split at h
  · rw [← Option.some.inj h]; exact regular_int _
  · split at h
    · rw [← Option.some.inj h]; exact regular_large _
    · contradiction

end Document

/-! ## JSON numbers -/

namespace Json

open Document

variable {d : Document} {x : Binary64} {e : Int}

theorem takeFitting_lt {significand : Nat} (h : significand < UInt64.size) (digits : List Char) :
    (takeFitting significand digits).1 < UInt64.size := by
  induction digits generalizing significand with
  | nil => exact h
  | cons c rest ih =>
    rw [takeFitting]
    split
    · next hlonger => exact ih hlonger
    · exact h

/-- A power of ten in the range of the numbers is rounded to one of at least one. -/
theorem le_exponentField_powerOfTen {n : Nat} (h : n ≤ 308) : 1021 ≤ (powerOfTen n).exponentField := by
  have hdigits : (Binary64.digitCount 1 : Int) = 1 := rfl
  rw [powerOfTen, Binary64.ofDecimal, if_neg Nat.one_ne_zero, hdigits, if_neg (by omega), if_neg (by omega)]
  have hden : Nat.pow 10 (-(n : Int)).toNat = 1 := by rw [Int.toNat_neg_natCast]
  rw [hden]
  refine Binary64.le_exponentField_ofRatio Nat.one_ne_zero ?_
  rw [Nat.one_mul]
  exact Nat.one_le_pow _ _ (by decide)

/-- Scaling a number that is not too large gives a finite one. -/
theorem isFinite_of_scaled? {y : Binary64} (hx : x.exponentField ≤ 1090) (h : scaled? x e = some y) :
    y.isFinite := by
  have hdiv : ∀ {z : Binary64} {a n : Nat}, 1021 ≤ a → z.exponentField ≤ a → n ≤ 308 →
      (z.div (powerOfTen n)).exponentField ≤ a + 6 := fun ha hz hn =>
    Binary64.exponentField_div_le ha hz (le_exponentField_powerOfTen hn)
  unfold scaled? at h
  split at h
  · next hzero => rw [← Option.some.inj h]; exact Binary64.isFinite_of_isZero hzero
  split at h
  · contradiction
  split at h
  · exact (Option.filter_eq_some_iff.mp h).2
  split at h
  · rw [← Option.some.inj h]
    have hfirst := hdiv (by decide) hx (show (-e).toNat ≤ 308 by omega)
    exact Binary64.isFinite_of_exponentField (by omega)
  split at h
  · rw [← Option.some.inj h]
    have hsecond := hdiv (by decide) (hdiv (by decide) hx (Nat.le_refl 308)) (show (-e - 308).toNat ≤ 308 by omega)
    exact Binary64.isFinite_of_exponentField (by omega)
  · rw [← Option.some.inj h]
    exact Binary64.isFinite_zero _

theorem regular_of_number? {cs : List Char} (h : number? cs = some d) : d.Regular := by
  obtain ⟨n, -, h⟩ := Option.bind_eq_some_iff.mp h
  have hwhole : (takeFitting 0 n.whole).1 < UInt64.size := takeFitting_lt (by decide) n.whole
  unfold NumberText.toDocument? at h
  simp only at h
  split at h
  · split at h
    · rw [← Option.some.inj h]
      exact regular_float.mpr (Binary64.isFinite_zero true)
    · split at h
      · -- A negative integer below the range is rounded.
        rw [← Option.some.inj h]
        cases hint : ofInt? (-((takeFitting 0 n.whole).1 : Int)) with
        | some i => exact regular_of_ofInt? hint
        | none =>
          refine regular_float.mpr (Binary64.isFinite_ofRatio Nat.one_ne_zero ?_)
          rw [Int.natAbs_neg, Int.natAbs_natCast, Nat.mul_one]
          exact hwhole
      · exact regular_of_ofInt? h
  · obtain ⟨x, hx, rfl⟩ := Option.map_eq_some_iff.mp h
    refine regular_float.mpr (isFinite_of_scaled? ?_ hx)
    refine Binary64.exponentField_ofRatio_le (m := 64) Nat.one_ne_zero ?_
    rw [Nat.mul_one]
    exact takeFitting_lt hwhole _

/-! ## JSON tokens -/

/-- A token of a regular document. -/
def Token.Regular : Token → Prop
  | .scalar d => d.Regular
  | _ => True

theorem regular_of_bareToken? {reversed : List Char} {token : Token} (h : bareToken? reversed = some token) :
    token.Regular := by
  unfold bareToken? at h
  split at h
  · rw [← Option.some.inj h]; exact regular_null
  · rw [← Option.some.inj h]; exact regular_bool true
  · rw [← Option.some.inj h]; exact regular_bool false
  · obtain ⟨d, hd, rfl⟩ := Option.map_eq_some_iff.mp h
    exact regular_of_number? hd

theorem regular_of_mem_startOf {c : Char} : ∀ token ∈ (startOf c).1, token.Regular := by
  unfold startOf
  repeat' split
  all_goals simp [Token.Regular]

theorem regular_of_scan {state : Scan} {cs : List Char} {tokens : List Token} (h : scan state cs = some tokens) :
    ∀ token ∈ tokens, token.Regular := by
  induction cs generalizing state tokens with
  | nil =>
    cases state with
    | between => simp [← Option.some.inj h]
    | bare text =>
      obtain ⟨token, htoken, rfl⟩ := Option.map_eq_some_iff.mp h
      exact List.forall_mem_singleton.mpr (regular_of_bareToken? htoken)
    | quoted text escaped => contradiction
  | cons c rest ih =>
    cases state with
    | between =>
      obtain ⟨more, hmore, rfl⟩ := Option.map_eq_some_iff.mp h
      exact List.forall_mem_append.mpr ⟨regular_of_mem_startOf, ih hmore⟩
    | bare text =>
      have hstart := regular_of_mem_startOf (c := c)
      rw [scan] at h
      split at h
      · exact ih h
      · next marks state hmarks =>
        rw [hmarks] at hstart
        obtain ⟨token, htoken, h⟩ := Option.bind_eq_some_iff.mp h
        obtain ⟨more, hmore, h⟩ := Option.bind_eq_some_iff.mp h
        rw [← Option.some.inj h]
        exact List.forall_mem_append.mpr
          ⟨List.forall_mem_cons.mpr ⟨regular_of_bareToken? htoken, hstart⟩, ih hmore⟩
    | quoted text escaped =>
      rw [scan] at h
      split at h
      · obtain ⟨inside, -, h⟩ := Option.bind_eq_some_iff.mp h
        obtain ⟨more, hmore, h⟩ := Option.bind_eq_some_iff.mp h
        rw [← Option.some.inj h]
        exact List.forall_mem_cons.mpr ⟨trivial, ih hmore⟩
      · exact ih h

/-! ## JSON containers -/

/-- What a container holds so far is regular. -/
def Frame.Regular : Frame → Prop
  | .list items => ∀ d ∈ items, d.Regular
  | .mapping fields | .field fields _ => ∀ field ∈ fields, field.2.Regular

/-- The result, if there is one, is regular. -/
def Expect.Regular : Expect → Prop
  | .nothing d => d.Regular
  | _ => True

/-- All that has been read is regular. -/
def Holding (state : List Frame × Expect) : Prop := (∀ frame ∈ state.1, frame.Regular) ∧ state.2.Regular

variable {stack : List Frame} {state next : List Frame × Expect} {token : Token}

theorem holding_of_complete (hstack : ∀ frame ∈ stack, frame.Regular) (hd : d.Regular)
    (h : complete d stack = some next) : Holding next := by
  cases stack with
  | nil => rw [← Option.some.inj h]; exact ⟨by simp, hd⟩
  | cons frame outer =>
    obtain ⟨hframe, houter⟩ := List.forall_mem_cons.mp hstack
    cases frame with
    | list items =>
      rw [← Option.some.inj h]
      exact ⟨List.forall_mem_cons.mpr ⟨List.forall_mem_cons.mpr ⟨hd, hframe⟩, houter⟩, trivial⟩
    | field fields name =>
      rw [← Option.some.inj h]
      exact ⟨List.forall_mem_cons.mpr ⟨List.forall_mem_cons.mpr ⟨hd, hframe⟩, houter⟩, trivial⟩
    | mapping fields => contradiction

theorem holding_of_opened {frame : Frame} {expect : Expect} (hstack : ∀ frame ∈ stack, frame.Regular)
    (hframe : frame.Regular) (hexpect : expect.Regular) (h : opened frame expect stack = some next) :
    Holding next := by
  unfold opened at h
  split at h
  · rw [← Option.some.inj h]
    exact ⟨List.forall_mem_cons.mpr ⟨hframe, hstack⟩, hexpect⟩
  · contradiction

theorem holding_of_beginValue (hstack : ∀ frame ∈ stack, frame.Regular) (htoken : token.Regular)
    (h : beginValue stack token = some next) : Holding next := by
  cases token with
  | scalar d => exact holding_of_complete hstack htoken h
  | text s => exact holding_of_complete hstack (regular_text s) h
  | openList =>
    have hexpect : Expect.firstItem.Regular := trivial
    exact holding_of_opened hstack (by simp [Frame.Regular]) hexpect h
  | openMapping =>
    have hexpect : Expect.firstName.Regular := trivial
    exact holding_of_opened hstack (by simp [Frame.Regular]) hexpect h
  | _ => contradiction

theorem holding_of_close (hstack : ∀ frame ∈ stack, frame.Regular) (h : close stack token = some next) :
    Holding next := by
  unfold close at h
  split at h
  · obtain ⟨hitems, houter⟩ := List.forall_mem_cons.mp hstack
    refine holding_of_complete houter (regular_list.mpr fun d hd => ?_) h
    exact hitems d (List.mem_reverse.mp hd)
  · obtain ⟨hfields, houter⟩ := List.forall_mem_cons.mp hstack
    refine holding_of_complete houter (regular_ofList fun field hfield => ?_) h
    exact hfields field (List.mem_reverse.mp hfield)
  · contradiction

/-- A token keeps regular what is read. -/
theorem holding_of_step (hstate : Holding state) (htoken : token.Regular) (h : step state token = some next) :
    Holding next := by
  unfold step at h
  split at h
  · exact holding_of_beginValue hstate.1 htoken h
  · rcases Option.or_eq_some_iff.mp h with h | ⟨-, h⟩
    · exact holding_of_close hstate.1 h
    · exact holding_of_beginValue hstate.1 htoken h
  · rw [← Option.some.inj h]; exact ⟨hstate.1, trivial⟩
  · exact holding_of_close hstate.1 h
  · rw [← Option.some.inj h]; exact ⟨hstate.1, trivial⟩
  · -- The mapping waits for the value of the name.
    obtain ⟨hfields, houter⟩ := List.forall_mem_cons.mp hstate.1
    rw [← Option.some.inj h]
    exact ⟨List.forall_mem_cons.mpr ⟨hfields, houter⟩, trivial⟩
  · rw [← Option.some.inj h]; exact ⟨hstate.1, trivial⟩
  · rw [← Option.some.inj h]; exact ⟨hstate.1, trivial⟩
  · exact holding_of_close hstate.1 h
  · contradiction

theorem holding_of_foldlM {tokens : List Token} (hstate : Holding state) (htokens : ∀ token ∈ tokens, token.Regular)
    (h : tokens.foldlM step state = some next) : Holding next := by
  induction tokens generalizing state with
  | nil => rw [← Option.some.inj h]; exact hstate
  | cons token rest ih =>
    obtain ⟨htoken, hrest⟩ := List.forall_mem_cons.mp htokens
    rw [List.foldlM_cons] at h
    obtain ⟨between, hstep, h⟩ := Option.bind_eq_some_iff.mp h
    exact ih (holding_of_step hstate htoken hstep) hrest h

theorem regular_of_read {text : String} (h : read text = .ok d) : d.Regular := by
  unfold read at h
  split at h
  · next heq =>
    cases h
    obtain ⟨tokens, htokens, h⟩ := Option.bind_eq_some_iff.mp heq
    unfold ofTokens? at h
    split at h
    · next hrun =>
      rw [← Option.some.inj h]
      have hstart : Holding ([], .value) := ⟨by simp, trivial⟩
      exact (holding_of_foldlM hstart (regular_of_scan htokens) hrun).2
    · contradiction
  · contradiction

end Json

/-! ## YAML -/

namespace Yaml

open Document

variable {d : Document}

theorem regular_of_untaggedDocument? {text : String} {plain : Bool} (h : untaggedDocument? text plain = some d) :
    d.Regular := by
  unfold untaggedDocument? at h
  split at h
  · unfold plainDocument? at h
    split at h
    · rw [← Option.some.inj h]; exact regular_null
    · rw [← Option.some.inj h]; exact regular_bool _
    · exact regular_of_ofInt? h
    · rw [← Option.some.inj h]; exact regular_ofFloat _
    · rw [← Option.some.inj h]; exact regular_text text
  · rw [← Option.some.inj h]; exact regular_text text

theorem regular_of_taggedDocument? {tag : Tag} {text : String} {plain : Bool}
    (h : taggedDocument? tag text plain = some d) : d.Regular := by
  unfold taggedDocument? at h
  split at h
  · obtain ⟨b, -, rfl⟩ := Option.map_eq_some_iff.mp h
    exact regular_bool b
  split at h
  · obtain ⟨i, -, h⟩ := Option.bind_eq_some_iff.mp h
    exact regular_of_ofInt? h
  split at h
  · obtain ⟨x, -, rfl⟩ := Option.map_eq_some_iff.mp h
    exact regular_ofFloat x
  split at h
  · split at h
    · rw [← Option.some.inj h]; exact regular_null
    · contradiction
  split at h
  · rw [← Option.some.inj h]; exact regular_text text
  split at h
  · contradiction
  · exact regular_of_untaggedDocument? h

theorem regular_of_scalarDocument? {properties : Properties} {text : String} {plain : Bool}
    (h : scalarDocument? properties text plain = some d) : d.Regular := by
  unfold scalarDocument? at h
  split at h
  · exact regular_of_taggedDocument? h
  · exact regular_of_untaggedDocument? h

theorem run_bind_eq_some {α β : Type} {x : Copying α} {f : α → Copying β} {copies : Nat} {result : β × Nat} :
    (x >>= f).run copies = some result ↔
      ∃ between, x.run copies = some between ∧ (f between.1).run between.2 = some result := by
  rw [StateT.run_bind]
  exact Option.bind_eq_some_iff

/-- What a run over a list gives was each given by a run for an item. -/
theorem exists_run_of_mapM {α β : Type} {f : α → Copying β} {items : List α} {results : List β} {copies after : Nat}
    (h : (items.mapM f).run copies = some (results, after)) :
    ∀ result ∈ results, ∃ item copies after, (f item).run copies = some (result, after) := by
  induction items generalizing results copies after with
  | nil =>
    rw [List.mapM_nil] at h
    obtain ⟨rfl, -⟩ := Prod.mk.inj (Option.some.inj h)
    simp
  | cons item rest ih =>
    rw [List.mapM_cons] at h
    obtain ⟨⟨first, between⟩, hfirst, h⟩ := run_bind_eq_some.mp h
    obtain ⟨⟨others, last⟩, hothers, h⟩ := run_bind_eq_some.mp h
    obtain ⟨rfl, -⟩ := Prod.mk.inj (Option.some.inj h)
    exact List.forall_mem_cons.mpr ⟨⟨item, copies, between, hfirst⟩, ih hothers⟩

theorem regular_of_document (a : Anchors) (depth : Nat) (node : Node Nat) {copies after : Nat}
    (h : (document a depth node).run copies = some (d, after)) : d.Regular := by
  induction depth generalizing node d copies after with
  | zero =>
    rw [document] at h
    obtain ⟨⟨found, between⟩, -, h⟩ := run_bind_eq_some.mp h
    cases found with
    | scalar properties s plain =>
      obtain ⟨scalar, hscalar, h⟩ := Option.bind_eq_some_iff.mp h
      obtain ⟨rfl, -⟩ := Prod.mk.inj (Option.some.inj h)
      exact regular_of_scalarDocument? hscalar
    | _ => simp at h
  | succ depth ih =>
    rw [document] at h
    obtain ⟨⟨found, between⟩, -, h⟩ := run_bind_eq_some.mp h
    cases found with
    | scalar properties s plain =>
      obtain ⟨scalar, hscalar, h⟩ := Option.bind_eq_some_iff.mp h
      obtain ⟨rfl, -⟩ := Prod.mk.inj (Option.some.inj h)
      exact regular_of_scalarDocument? hscalar
    | sequence properties items =>
      simp only at h
      split at h
      · simp at h
      · obtain ⟨⟨items, last⟩, hitems, h⟩ := run_bind_eq_some.mp h
        obtain ⟨rfl, -⟩ := Prod.mk.inj (Option.some.inj h)
        refine regular_list.mpr fun d hd => ?_
        obtain ⟨item, copies, after, hrun⟩ := exists_run_of_mapM hitems d hd
        exact ih item hrun
    | mapping properties entries =>
      simp only at h
      split at h
      · simp at h
      · obtain ⟨⟨fields, last⟩, hfields, h⟩ := run_bind_eq_some.mp h
        obtain ⟨rfl, -⟩ := Prod.mk.inj (Option.some.inj h)
        refine regular_ofList fun field hfield => ?_
        obtain ⟨entry, copies, after, hrun⟩ := exists_run_of_mapM hfields field hfield
        obtain ⟨⟨name, middle⟩, -, hrun⟩ := run_bind_eq_some.mp hrun
        obtain ⟨⟨value, final⟩, hvalue, hrun⟩ := run_bind_eq_some.mp hrun
        obtain ⟨rfl, -⟩ := Prod.mk.inj (Option.some.inj hrun)
        exact ih entry.2 hvalue
    | «alias» target => simp at h

theorem regular_of_read {text : String} (h : read text = .ok d) : d.Regular := by
  unfold read at h
  split at h
  · next heq =>
    cases h
    obtain ⟨tokens, -, h⟩ := Option.bind_eq_some_iff.mp heq
    obtain ⟨root, -, h⟩ := Option.bind_eq_some_iff.mp h
    cases root with
    | none => rw [← Option.some.inj h]; exact regular_null
    | some node =>
      obtain ⟨⟨node, anchors⟩, -, h⟩ := Option.bind_eq_some_iff.mp h
      obtain ⟨⟨found, copies⟩, hfound, h⟩ := Option.bind_eq_some_iff.mp h
      obtain rfl : found = d := Option.some.inj h
      exact regular_of_document anchors depthLimit node hfound
  · contradiction

end Yaml

/-! ## XML -/

namespace Xml

open Document

variable {d : Document}

theorem regular_of_leaf {name : String} {mark : Option String} {s : String} (h : leaf name mark s = .ok d) :
    d.Regular := by
  unfold leaf at h
  generalize lowered (trimmed s) = word, trimmed s = number at h
  split at h
  · cases h; exact regular_text s
  · cases h; exact regular_text s
  · split at h
    · cases h; exact regular_int _
    · cases h; exact regular_large _
    · contradiction
  · split at h
    · cases h; exact regular_ofFloat _
    · contradiction
  · split at h
    all_goals first | contradiction | cases h; exact regular_bool _
  · cases h; exact regular_null
  · cases h; exact regular_list.mpr (by simp)
  · cases h; exact regular_mapping.mpr ⟨List.nodup_nil, by simp⟩
  · contradiction

mutual

theorem regular_of_toDocument : (e : Element) → {d : Document} → e.toDocument = .ok d → d.Regular
  | .mk name mark s [], d, h => by
    rw [Element.toDocument] at h
    exact regular_of_leaf h
  | .mk name mark s (first :: others), d, h => by
    rw [Element.toDocument] at h
    split at h
    · obtain ⟨items, hitems, rfl⟩ := map_eq_ok_iff.mp h
      exact regular_list.mpr (regular_of_itemsNamed _ (first :: others) hitems)
    · obtain ⟨fields, hfields, rfl⟩ := map_eq_ok_iff.mp h
      exact regular_ofList (regular_of_fieldsOf (first :: others) hfields)

theorem regular_of_itemsNamed (name : String) : (elements : List Element) → {items : List Document} →
    itemsNamed name elements = .ok items → ∀ d ∈ items, d.Regular
  | [], items, h => by
    rw [itemsNamed] at h
    cases h
    simp
  | e :: rest, items, h => by
    rw [itemsNamed] at h
    split at h
    · obtain ⟨d, hd, h⟩ := bind_eq_ok_iff.mp h
      obtain ⟨others, hothers, h⟩ := bind_eq_ok_iff.mp h
      cases h
      exact List.forall_mem_cons.mpr ⟨regular_of_toDocument e hd, regular_of_itemsNamed name rest hothers⟩
    · exact regular_of_itemsNamed name rest h

theorem regular_of_fieldsOf : (elements : List Element) → {fields : List (String × Document)} →
    fieldsOf elements = .ok fields → ∀ field ∈ fields, field.2.Regular
  | [], fields, h => by
    rw [fieldsOf] at h
    cases h
    simp
  | e :: rest, fields, h => by
    rw [fieldsOf] at h
    obtain ⟨d, hd, h⟩ := bind_eq_ok_iff.mp h
    obtain ⟨others, hothers, h⟩ := bind_eq_ok_iff.mp h
    cases h
    exact List.forall_mem_cons.mpr ⟨regular_of_toDocument e hd, regular_of_fieldsOf rest hothers⟩

end

theorem regular_of_read {text : String} (h : read text = .ok d) : d.Regular := by
  unfold read at h
  split at h
  · contradiction
  · next root _ =>
    split at h
    · contradiction
    · next hroot =>
      cases h
      unfold Element.rootDocument at hroot
      split at hroot
      · cases hroot
        exact regular_mapping.mpr ⟨List.nodup_nil, by simp⟩
      · exact regular_of_toDocument root hroot

end Xml

/-- **A document that is read from a file is regular, in every format.** -/
theorem FileFormat.regular_of_read {format : FileFormat} {text : String} {d : Document}
    (h : format.read text = .ok d) : d.Regular := by
  cases format with
  | json => exact Json.regular_of_read h
  | yaml => exact Yaml.regular_of_read h
  | xml => exact Xml.regular_of_read h

end LayeredConfig
