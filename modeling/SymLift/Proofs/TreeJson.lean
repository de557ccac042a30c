import SymLift.IR.Expr.Json
import SymLift.Proofs.JsonRecords
import SymLift.Proofs.JsonText
import SymLift.Proofs.OperatorNames

/-!
# The JSON form of trees is faithful

A tree is written as tagged records and read back part by part.  An operator
is written as its name, so it comes back if it is one that a name is read as:
the tree is then `Named`.

* `read?_toJson`: a reader with fuel for its depth returns a named tree from
  its JSON form, by induction on the fuel.
* `readFrom_of_read?`: whatever is read is named, and it nests no deeper in
  its JSON form than what it was read from.
* `exact_toJson`: the text of the JSON form determines it.

`toJson_faithful` joins these: what was read is read again from its JSON form,
every named tree within the nesting limit makes the round trip, and named trees
with one JSON form are equal.
-/

namespace SymLift.IR

/-! ## Parts of a record -/

theorem nat?_nat {n bound : Nat} (h : n < bound) : (Json.nat n).nat? bound = some n := by
  rw [Json.nat, Json.nat?]
  exact if_pos ⟨Int.natCast_nonneg n, h⟩

theorem Ty.ofJson?_toJson (nested : Bool) (ty : Ty) : ofJson? nested ty.toJson = some ty :=
  Ty.ofName?_name ty

theorem RegArray.ofJson?_toJson (r : RegArray) : ofJson? r.toJson = some r := by
  have hnodup : ((parts.zip [Json.nat r.base.toNat, r.elemTy.toJson, .nat r.size.toNat]).map
      Prod.fst).Nodup := show parts.Nodup by decide
  have hrecord := Json.record?_obj hnodup rfl (List.Subset.refl _)
  rw [ofJson?, toJson, hrecord]
  simp only [Option.bind_eq_bind, Option.bind_some, nat?_nat r.base.toNat_lt_size,
    nat?_nat r.size.toNat_lt_size, Ty.ofJson?_toJson, UInt64.ofNat_toNat, UInt32.ofNat_toNat]

namespace Expr

variable {kind : Kind} {parts : List Json} {e : Expr} {es : List Expr} {fuel : Nat} {nested : Bool}

theorem untag?_tagged (nested : Bool) (hlength : kind.parts.length = parts.length) :
    untag? nested (tagged kind parts) = some (kind, parts) := by
  have hnames : (("tag", Json.str kind.name) :: kind.parts.zip parts).map Prod.fst =
      "tag" :: kind.parts := by
    rw [List.map_cons, List.map_fst_zip (Nat.le_of_eq hlength)]
  have hnodup : ("tag" :: kind.parts).Nodup := by cases kind <;> decide
  rw [← hnames] at hnodup
  simp only [tagged, Json.obj, untag?, Option.bind_eq_bind, Option.bind_eq_some_iff]
  exact ⟨_, Json.namedFields?_obj _, _, Json.field?_eq_some hnodup List.mem_cons_self, kind,
    Kind.ofName?_name kind, parts, Json.record?_obj hnodup hlength (List.subset_cons_self _ _), rfl⟩

/-! ## Reading back -/

theorem readUInt32?_nat (n : UInt32) : readUInt32? (.nat n.toNat) = some n := by
  rw [readUInt32?, nat?_nat n.toNat_lt_size, Option.map_some, UInt32.ofNat_toNat]

theorem int?_toInt (n : Int32) :
    (Json.integer n.toInt).int? (UInt32.size / 2) = some n.toInt := by
  have hle := n.le_toInt
  have hlt := n.toInt_lt
  rw [Json.int?]
  exact if_pos ⟨hle, hlt⟩

theorem readOrder?_str (order : ByteOrder) : readOrder? (.str order.name) = some order :=
  ByteOrder.ofName?_name order

theorem readOp?_opToJson {op : Op} (h : op ∈ Set.range Op.parse) :
    readOp? (opToJson op) = some op := by
  obtain ⟨name, rfl⟩ := h
  exact congrArg some (Op.parse_name name)

mutual
/-- The operators in a tree. -/
def ops : Expr → List Op
  | .binder _ | .get .. | .rdTmp _ | .const _ => []
  | .getI _ index _ => index.ops
  | .unop op arg => op :: arg.ops
  | .binop op arg1 arg2 => op :: (arg1.ops ++ arg2.ops)
  | .triop op arg1 arg2 arg3 => op :: (arg1.ops ++ arg2.ops ++ arg3.ops)
  | .qop op arg1 arg2 arg3 arg4 => op :: (arg1.ops ++ arg2.ops ++ arg3.ops ++ arg4.ops)
  | .load _ _ addr => addr.ops
  | .ccall _ _ args => opsAll args
  | .mux0X cond expr0 exprX => cond.ops ++ expr0.ops ++ exprX.ops

/-- The operators in a list of trees. -/
def opsAll : List Expr → List Op
  | [] => []
  | e :: es => e.ops ++ opsAll es
end

/-- Every operator in a tree is one that a name is read as. -/
def Named (e : Expr) : Prop := ∀ op ∈ e.ops, op ∈ Set.range Op.parse

theorem depth_tagged (hlength : kind.parts.length = parts.length) :
    (tagged kind parts).depth = Json.depthOfItems parts + 1 := by
  rw [tagged, Json.depth_obj, List.map_cons, List.map_snd_zip (Nat.le_of_eq hlength.symm)]
  exact congrArg (· + 1) (Nat.zero_max _)

theorem depth_lt_of_depth_tagged_lt (hlength : kind.parts.length = parts.length)
    (h : (tagged kind parts).depth < fuel + 1) : ∀ part ∈ parts, part.depth < fuel := by
  rw [depth_tagged hlength, Nat.add_lt_add_iff_right] at h
  exact fun part hpart =>
    Nat.lt_of_le_of_lt (Json.depthOfItems_le_iff.1 (Nat.le_refl _) part hpart) h

theorem depth_tagged_le {d : Nat} (hlength : kind.parts.length = parts.length)
    (h : ∀ part ∈ parts, part.depth < d) (hd : 0 < d) : (tagged kind parts).depth ≤ d := by
  rw [depth_tagged hlength]
  have hparts := Json.depthOfItems_le_iff.2 fun part hpart => Nat.le_sub_one_of_lt (h part hpart)
  omega

theorem toJsonAll_eq_map (es : List Expr) : toJsonAll es = es.map toJson := by
  induction es with
  | nil => rfl
  | cons e es ih => rw [toJsonAll, ih, List.map_cons]

theorem opsAll_eq_flatMap (es : List Expr) : opsAll es = es.flatMap ops := by
  induction es with
  | nil => rfl
  | cons e es ih => rw [opsAll, ih, List.flatMap_cons]

theorem mapM_toJsonAll {read : Json → Option Expr} (h : ∀ e ∈ es, read e.toJson = some e) :
    (toJsonAll es).mapM read = some es := by
  induction es with
  | nil => rfl
  | cons e es ih =>
    obtain ⟨he, hes⟩ := List.forall_mem_cons.1 h
    rw [toJsonAll, List.mapM_cons, he, ih hes]
    rfl

/-- A tree is read back from its JSON form, with fuel for its depth. -/
theorem read?_toJson (fuel : Nat) : ∀ (nested : Bool) (e : Expr), e.Named →
    e.toJson.depth < fuel → read? fuel nested e.toJson = some e := by
  -- The induction is on the fuel, which also reaches the arguments of a call, two levels down.
  induction fuel with
  | zero => exact fun _ _ _ h => absurd h (Nat.not_lt_zero _)
  | succ fuel ih =>
    intro nested e hnamed hdepth
    cases e with
    | binder index | rdTmp index =>
      rw [toJson, read?, untag?_tagged _ rfl]
      simp only [Option.bind_eq_bind, Option.bind_some, readUInt32?_nat]
    | get offset ty =>
      rw [toJson, read?, untag?_tagged _ rfl]
      simp only [Option.bind_eq_bind, Option.bind_some, nat?_nat offset.toNat_lt_size,
        Ty.ofJson?_toJson, UInt64.ofNat_toNat]
    | const literal =>
      rw [toJson, read?, untag?_tagged _ rfl]
      simp only [Option.bind_eq_bind, Option.bind_some, Const.ofJson?_toJson]
    | getI registers index bias =>
      rw [toJson] at hdepth
      have hparts := depth_lt_of_depth_tagged_lt rfl hdepth
      simp only [List.forall_mem_cons] at hparts
      rw [toJson, read?, untag?_tagged _ rfl]
      simp only [Option.bind_eq_bind, Option.bind_some, RegArray.ofJson?_toJson,
        int?_toInt, Int32.ofInt_toInt, ih true index hnamed hparts.2.1]
    | unop op arg =>
      rw [toJson] at hdepth
      have hparts := depth_lt_of_depth_tagged_lt rfl hdepth
      simp only [Named, ops, List.forall_mem_cons] at hnamed hparts
      obtain ⟨hop, harg⟩ := hnamed
      rw [toJson, read?, untag?_tagged _ rfl]
      simp only [Option.bind_eq_bind, Option.bind_some, readOp?_opToJson hop,
        ih true arg harg hparts.2.1]
    | binop op arg1 arg2 =>
      rw [toJson] at hdepth
      have hparts := depth_lt_of_depth_tagged_lt rfl hdepth
      simp only [Named, ops, List.forall_mem_cons, List.forall_mem_append] at hnamed hparts
      obtain ⟨hop, harg1, harg2⟩ := hnamed
      rw [toJson, read?, untag?_tagged _ rfl]
      simp only [Option.bind_eq_bind, Option.bind_some, readOp?_opToJson hop,
        ih true arg1 harg1 hparts.2.1, ih true arg2 harg2 hparts.2.2.1]
    | triop op arg1 arg2 arg3 =>
      rw [toJson] at hdepth
      have hparts := depth_lt_of_depth_tagged_lt rfl hdepth
      simp only [Named, ops, List.forall_mem_cons, List.forall_mem_append] at hnamed hparts
      obtain ⟨hop, ⟨harg1, harg2⟩, harg3⟩ := hnamed
      rw [toJson, read?, untag?_tagged _ rfl]
      simp only [Option.bind_eq_bind, Option.bind_some, readOp?_opToJson hop,
        ih true arg1 harg1 hparts.2.1, ih true arg2 harg2 hparts.2.2.1,
        ih true arg3 harg3 hparts.2.2.2.1]
    | qop op arg1 arg2 arg3 arg4 =>
      rw [toJson] at hdepth
      have hparts := depth_lt_of_depth_tagged_lt rfl hdepth
      simp only [Named, ops, List.forall_mem_cons, List.forall_mem_append] at hnamed hparts
      obtain ⟨hop, ⟨⟨harg1, harg2⟩, harg3⟩, harg4⟩ := hnamed
      rw [toJson, read?, untag?_tagged _ rfl]
      simp only [Option.bind_eq_bind, Option.bind_some, readOp?_opToJson hop,
        ih true arg1 harg1 hparts.2.1, ih true arg2 harg2 hparts.2.2.1,
        ih true arg3 harg3 hparts.2.2.2.1, ih true arg4 harg4 hparts.2.2.2.2.1]
    | load order ty addr =>
      rw [toJson] at hdepth
      have hparts := depth_lt_of_depth_tagged_lt rfl hdepth
      simp only [List.forall_mem_cons] at hparts
      rw [toJson, read?, untag?_tagged _ rfl]
      simp only [Option.bind_eq_bind, Option.bind_some, readOrder?_str, Ty.ofJson?_toJson,
        ih true addr hnamed hparts.2.2.1]
    | ccall callee retTy args =>
      rw [toJson] at hdepth
      have hparts := depth_lt_of_depth_tagged_lt rfl hdepth
      simp only [Named, ops, opsAll_eq_flatMap, List.forall_mem_cons, List.forall_mem_flatMap]
        at hnamed hparts
      have hargs : ∀ arg ∈ args, read? fuel true arg.toJson = some arg := by
        intro arg harg
        have hmem : arg.toJson ∈ toJsonAll args := toJsonAll_eq_map args ▸ List.mem_map_of_mem harg
        exact ih true arg (hnamed arg harg) (Nat.lt_trans (Json.depth_lt_of_mem_array hmem)
          hparts.2.2.1)
      rw [toJson, read?, untag?_tagged _ rfl]
      simp only [Option.bind_eq_bind, Option.bind_some, Json.str?, Json.str, Json.items?,
        Ty.ofJson?_toJson, mapM_toJsonAll hargs]
    | mux0X cond expr0 exprX =>
      rw [toJson] at hdepth
      have hparts := depth_lt_of_depth_tagged_lt rfl hdepth
      simp only [Named, ops, List.forall_mem_cons, List.forall_mem_append] at hnamed hparts
      obtain ⟨⟨hcond, hzero⟩, hother⟩ := hnamed
      rw [toJson, read?, untag?_tagged _ rfl]
      simp only [Option.bind_eq_bind, Option.bind_some, ih true cond hcond hparts.1,
        ih true expr0 hzero hparts.2.1, ih true exprX hother hparts.2.2.1]

end Expr

/-! ## What was read -/

theorem Const.depth_toJson_le {j : Json} {c : Const} (h : ofJson? j = some c) :
    c.toJson.depth ≤ j.depth := by
  have hone : c.toJson.depth = 1 := by cases c <;> rfl
  rw [ofJson?] at h
  split at h
  · rename_i name payload hvariant
    unfold Json.variant? at hvariant
    split at hvariant
    · cases hvariant
    · rw [hone, Json.depth]
      exact Nat.le_add_left 1 _
    · cases hvariant
  · cases h

theorem RegArray.depth_toJson_le {j : Json} {r : RegArray} (h : ofJson? j = some r) :
    r.toJson.depth ≤ j.depth := by
  rw [ofJson?] at h
  obtain ⟨values, hrecord, -⟩ := Option.bind_eq_some_iff.1 h
  exact Json.depth_pos_of_record? hrecord

namespace Expr

variable {kind : Kind} {parts items : List Json} {e : Expr} {es : List Expr} {fuel : Nat}
  {nested : Bool} {j part : Json}

/-- The parts of a tagged record nest less deep than the record. -/
theorem depth_lt_of_untag? (h : untag? nested j = some (kind, parts)) :
    0 < j.depth ∧ ∀ part ∈ parts, part.depth < j.depth := by
  unfold untag? at h
  split at h
  · rename_i tag items
    simp only [Option.bind_eq_bind, Option.bind_eq_some_iff] at h
    obtain ⟨kind', -, parts', hrecord, heq⟩ := h
    cases heq
    refine ⟨Nat.succ_pos _, fun part hpart => ?_⟩
    have hlt := Json.depth_lt_of_record? hrecord hpart
    rw [Json.depth] at hlt ⊢
    rw [Json.depthOfItems]
    omega
  · simp only [Option.bind_eq_bind, Option.bind_eq_some_iff] at h
    obtain ⟨_, -, _, -, kind', -, parts', hrecord, heq⟩ := h
    cases heq
    exact ⟨Nat.succ_pos _, fun part => Json.depth_lt_of_record? hrecord⟩
  · cases h

theorem readOp?_mem_range {op : Op} (h : readOp? j = some op) : op ∈ Set.range Op.parse := by
  obtain ⟨name, -, hop⟩ := Option.map_eq_some_iff.1 h
  exact ⟨name, hop⟩

/-- A tree that was read from a value has operators that names are read as,
and nests no deeper in its JSON form. -/
def ReadFrom (j : Json) (e : Expr) : Prop := e.Named ∧ e.toJson.depth ≤ j.depth

theorem ReadFrom.part_lt {d : Nat} (h : ReadFrom part e) (hpart : part.depth < d) :
    e.toJson.depth < d :=
  Nat.lt_of_le_of_lt h.2 hpart

/-- Trees that were read from the items of an array. -/
theorem readFrom_all {read : Json → Option Expr}
    (hread : ∀ item e, read item = some e → ReadFrom item e) (hitems : j.items? = some items)
    (h : items.mapM read = some es) :
    (∀ op ∈ opsAll es, op ∈ Set.range Op.parse) ∧ (Json.array (toJsonAll es)).depth ≤ j.depth := by
  have hall : ∀ e ∈ es, ∃ item ∈ items, ReadFrom item e := by
    intro e he
    obtain ⟨item, hitem, heq⟩ := Json.exists_of_mem_mapM_some h he
    exact ⟨item, hitem, hread item e heq⟩
  cases j with
  | array =>
    cases hitems
    rw [opsAll_eq_flatMap, List.forall_mem_flatMap, Json.depth, Json.depth, toJsonAll_eq_map]
    refine ⟨fun e he => ?_, Nat.succ_le_succ (Json.depthOfItems_le_iff.2 ?_)⟩
    · obtain ⟨item, -, hnamed, -⟩ := hall e he
      exact hnamed
    · intro part hpart
      obtain ⟨e, he, rfl⟩ := List.mem_map.1 hpart
      obtain ⟨item, hitem, -, hdepth⟩ := hall e he
      exact Nat.le_trans hdepth (Json.depthOfItems_le_iff.1 (Nat.le_refl _) item hitem)
  | null | bool | integer | real | string | object => cases hitems

/-- Every tree that is read has operators that names are read as, and nests
no deeper in its JSON form than the value it was read from. -/
theorem readFrom_of_read? (fuel : Nat) : ∀ (nested : Bool) (j : Json) (e : Expr),
    read? fuel nested j = some e → ReadFrom j e := by
  induction fuel with
  | zero =>
    intro nested j e h
    cases h
  | succ fuel ih =>
    intro nested j e h
    rw [read?] at h
    obtain ⟨⟨kind, parts⟩, huntag, h⟩ := Option.bind_eq_some_iff.1 h
    obtain ⟨hpos, hparts⟩ := depth_lt_of_untag? huntag
    -- One case for each kind, in the order of `Kind.all`, and one for a record of no kind.
    split at h <;>
      try simp only [Option.bind_eq_bind, Option.bind_eq_some_iff, Option.some.injEq] at h
    case h_1 index heq =>
      obtain ⟨n, -, rfl⟩ := h
      exact ⟨nofun, depth_tagged_le rfl (List.forall_mem_singleton.2 hpos) hpos⟩
    case h_2 offset ty heq =>
      obtain ⟨n, -, t, -, rfl⟩ := h
      refine ⟨nofun, depth_tagged_le rfl ?_ hpos⟩
      simp only [List.forall_mem_cons]
      exact ⟨hpos, hpos, nofun⟩
    case h_3 registers index bias heq =>
      cases heq
      obtain ⟨r, hr, i, hi, b, -, rfl⟩ := h
      simp only [List.forall_mem_cons] at hparts
      refine ⟨(ih _ _ _ hi).1, depth_tagged_le rfl ?_ hpos⟩
      simp only [List.forall_mem_cons]
      exact ⟨Nat.lt_of_le_of_lt (RegArray.depth_toJson_le hr) hparts.1,
        (ih _ _ _ hi).part_lt hparts.2.1, hpos, nofun⟩
    case h_4 op arg heq =>
      cases heq
      obtain ⟨o, ho, a, ha, rfl⟩ := h
      simp only [List.forall_mem_cons] at hparts
      refine ⟨List.forall_mem_cons.2 ⟨readOp?_mem_range ho, (ih _ _ _ ha).1⟩,
        depth_tagged_le rfl ?_ hpos⟩
      simp only [List.forall_mem_cons]
      exact ⟨hpos, (ih _ _ _ ha).part_lt hparts.2.1, nofun⟩
    case h_5 op arg1 arg2 heq =>
      cases heq
      obtain ⟨o, ho, a, ha, b, hb, rfl⟩ := h
      simp only [List.forall_mem_cons] at hparts
      refine ⟨?_, depth_tagged_le rfl ?_ hpos⟩
      · simp only [Named, ops, List.forall_mem_cons, List.forall_mem_append]
        exact ⟨readOp?_mem_range ho, (ih _ _ _ ha).1, (ih _ _ _ hb).1⟩
      · simp only [List.forall_mem_cons]
        exact ⟨hpos, (ih _ _ _ ha).part_lt hparts.2.1, (ih _ _ _ hb).part_lt hparts.2.2.1, nofun⟩
    case h_6 op arg1 arg2 arg3 heq =>
      cases heq
      obtain ⟨o, ho, a, ha, b, hb, c, hc, rfl⟩ := h
      simp only [List.forall_mem_cons] at hparts
      refine ⟨?_, depth_tagged_le rfl ?_ hpos⟩
      · simp only [Named, ops, List.forall_mem_cons, List.forall_mem_append]
        exact ⟨readOp?_mem_range ho, ⟨(ih _ _ _ ha).1, (ih _ _ _ hb).1⟩, (ih _ _ _ hc).1⟩
      · simp only [List.forall_mem_cons]
        exact ⟨hpos, (ih _ _ _ ha).part_lt hparts.2.1, (ih _ _ _ hb).part_lt hparts.2.2.1,
          (ih _ _ _ hc).part_lt hparts.2.2.2.1, nofun⟩
    case h_7 op arg1 arg2 arg3 arg4 heq =>
      cases heq
      obtain ⟨o, ho, a, ha, b, hb, c, hc, d, hd, rfl⟩ := h
      simp only [List.forall_mem_cons] at hparts
      refine ⟨?_, depth_tagged_le rfl ?_ hpos⟩
      · simp only [Named, ops, List.forall_mem_cons, List.forall_mem_append]
        exact ⟨readOp?_mem_range ho,
          ⟨⟨(ih _ _ _ ha).1, (ih _ _ _ hb).1⟩, (ih _ _ _ hc).1⟩, (ih _ _ _ hd).1⟩
      · simp only [List.forall_mem_cons]
        exact ⟨hpos, (ih _ _ _ ha).part_lt hparts.2.1, (ih _ _ _ hb).part_lt hparts.2.2.1,
          (ih _ _ _ hc).part_lt hparts.2.2.2.1, (ih _ _ _ hd).part_lt hparts.2.2.2.2.1, nofun⟩
    case h_8 tmp heq =>
      obtain ⟨n, -, rfl⟩ := h
      exact ⟨nofun, depth_tagged_le rfl (List.forall_mem_singleton.2 hpos) hpos⟩
    case h_9 literal heq =>
      cases heq
      obtain ⟨c, hc, rfl⟩ := h
      have hlt := Nat.lt_of_le_of_lt (Const.depth_toJson_le hc) (hparts _ List.mem_cons_self)
      exact ⟨nofun, depth_tagged_le rfl (List.forall_mem_singleton.2 hlt) hpos⟩
    case h_10 order ty addr heq =>
      cases heq
      obtain ⟨o, -, t, -, a, ha, rfl⟩ := h
      simp only [List.forall_mem_cons] at hparts
      refine ⟨(ih _ _ _ ha).1, depth_tagged_le rfl ?_ hpos⟩
      simp only [List.forall_mem_cons]
      exact ⟨hpos, hpos, (ih _ _ _ ha).part_lt hparts.2.2.1, nofun⟩
    case h_11 callee retTy args heq =>
      cases heq
      obtain ⟨f, -, t, -, items, hitems, as, has, rfl⟩ := h
      simp only [List.forall_mem_cons] at hparts
      obtain ⟨hnamed, hdepth⟩ := readFrom_all (ih true) hitems has
      refine ⟨hnamed, depth_tagged_le rfl ?_ hpos⟩
      simp only [List.forall_mem_cons]
      exact ⟨hpos, hpos, Nat.lt_of_le_of_lt hdepth hparts.2.2.1, nofun⟩
    case h_12 cond expr0 exprX heq =>
      cases heq
      obtain ⟨c, hc, a, ha, b, hb, rfl⟩ := h
      simp only [List.forall_mem_cons] at hparts
      refine ⟨?_, depth_tagged_le rfl ?_ hpos⟩
      · simp only [Named, ops, List.forall_mem_append]
        exact ⟨⟨(ih _ _ _ hc).1, (ih _ _ _ ha).1⟩, (ih _ _ _ hb).1⟩
      · simp only [List.forall_mem_cons]
        exact ⟨(ih _ _ _ hc).part_lt hparts.1, (ih _ _ _ ha).part_lt hparts.2.1,
          (ih _ _ _ hb).part_lt hparts.2.2.1, nofun⟩
    case h_13 => cases h

/-! ## The text of a tree -/

theorem exact_tagged (h : ∀ part ∈ parts, part.Exact) : (tagged kind parts).Exact := by
  refine Json.exact_obj (List.forall_mem_cons.2 ⟨rfl, fun field hfield => ?_⟩)
  exact h _ (List.of_mem_zip hfield).2

theorem exact_uint32 (n : UInt32) : (Json.nat n.toNat).Exact :=
  Json.exact_nat (Nat.lt_trans n.toNat_lt_size (by decide))

theorem exact_int32 (n : Int32) : (Json.integer n.toInt).Exact :=
  ⟨Int.le_trans (by decide) n.le_toInt, Int.lt_trans n.toInt_lt (by decide)⟩

theorem exact_const (c : Const) : c.toJson.Exact := by
  refine Json.exact_obj (List.forall_mem_singleton.2 ?_)
  cases c with
  | u1 value => trivial
  | u8 value | u16 value | u32 value | u64 value | f32 value | f64 value | v128 value =>
    exact Json.exact_nat (Nat.lt_of_lt_of_le value.toNat_lt_size (by decide))

theorem exact_regArray (r : RegArray) : r.toJson.Exact := by
  refine Json.exact_obj fun field hfield => ?_
  have hmem := (List.of_mem_zip hfield).2
  simp only [List.mem_cons, List.not_mem_nil, or_false] at hmem
  rcases hmem with h | h | h <;> rw [h]
  · exact Json.exact_nat r.base.toNat_lt_size
  · exact rfl
  · exact exact_uint32 r.size

mutual
/-- The text of the JSON form of a tree determines it. -/
theorem exact_toJson (e : Expr) : e.toJson.Exact := by
  rw [toJson.eq_def]
  cases e with
  | binder index | rdTmp index =>
    exact exact_tagged (List.forall_mem_singleton.2 (exact_uint32 index))
  | const literal => exact exact_tagged (List.forall_mem_singleton.2 (exact_const literal))
  | get offset ty =>
    refine exact_tagged ?_
    simp only [List.forall_mem_cons]
    exact ⟨Json.exact_nat offset.toNat_lt_size, rfl, nofun⟩
  | getI registers index bias =>
    refine exact_tagged ?_
    simp only [List.forall_mem_cons]
    exact ⟨exact_regArray registers, exact_toJson index, exact_int32 bias, nofun⟩
  | unop op arg =>
    refine exact_tagged ?_
    simp only [List.forall_mem_cons]
    exact ⟨rfl, exact_toJson arg, nofun⟩
  | binop op arg1 arg2 =>
    refine exact_tagged ?_
    simp only [List.forall_mem_cons]
    exact ⟨rfl, exact_toJson arg1, exact_toJson arg2, nofun⟩
  | triop op arg1 arg2 arg3 =>
    refine exact_tagged ?_
    simp only [List.forall_mem_cons]
    exact ⟨rfl, exact_toJson arg1, exact_toJson arg2, exact_toJson arg3, nofun⟩
  | qop op arg1 arg2 arg3 arg4 =>
    refine exact_tagged ?_
    simp only [List.forall_mem_cons]
    exact ⟨rfl, exact_toJson arg1, exact_toJson arg2, exact_toJson arg3, exact_toJson arg4, nofun⟩
  | load order ty addr =>
    refine exact_tagged ?_
    simp only [List.forall_mem_cons]
    exact ⟨rfl, rfl, exact_toJson addr, nofun⟩
  | ccall callee retTy args =>
    refine exact_tagged ?_
    simp only [List.forall_mem_cons]
    exact ⟨rfl, rfl, exact_toJsonAll args, nofun⟩
  | mux0X cond expr0 exprX =>
    refine exact_tagged ?_
    simp only [List.forall_mem_cons]
    exact ⟨exact_toJson cond, exact_toJson expr0, exact_toJson exprX, nofun⟩

theorem exact_toJsonAll (es : List Expr) : Json.ExactItems (toJsonAll es) := by
  cases es with
  | nil => trivial
  | cons e es => exact ⟨exact_toJson e, exact_toJsonAll es⟩
end

/-! ## The round trip -/

/-- A tree whose operators have names is read back from its JSON form, unless
it nests too deep for any reader. -/
theorem ofJson?_toJson (hnamed : e.Named) (hdepth : e.toJson.depth ≤ Json.maxDepth) :
    ofJson? e.toJson = some e := by
  rw [ofJson?, if_pos ⟨(exact_toJson e).isSound, hdepth⟩]
  exact read?_toJson _ false e hnamed (Nat.lt_succ_self _)

theorem parse?_render_toJson (e : Expr) : parse? e.toJson.render = ofJson? e.toJson := by
  rw [parse?, Json.parse?_render (exact_toJson e)]
  rfl

/-- Trees whose operators have names differ in their JSON form. -/
theorem toJson_inj {d e : Expr} (hd : d.Named) (he : e.Named) (h : d.toJson = e.toJson) : d = e := by
  have hread := read?_toJson _ false d hd (Nat.lt_succ_self _)
  rw [h, read?_toJson _ false e he (Nat.lt_succ_self _)] at hread
  exact (Option.some.inj hread).symm

/-- What was read from a text has operators with names and is not nested too
deep, so it can be written and read again. -/
theorem named_of_parse? {text : String} (h : parse? text = some e) :
    e.Named ∧ e.toJson.depth ≤ Json.maxDepth := by
  obtain ⟨j, -, hread⟩ := Option.bind_eq_some_iff.1 h
  rw [ofJson?] at hread
  split at hread
  · rename_i hsound
    obtain ⟨hnamed, hdepth⟩ := readFrom_of_read? _ _ _ _ hread
    exact ⟨hnamed, Nat.le_trans hdepth hsound.2⟩
  · cases hread

/-- The JSON form of trees is faithful.  A tree that was read from a text is
read again from its JSON form, as a value and as a text.  So is every tree
whose operators are ones that names are read as and that is not nested too
deep, and two such trees with one form are equal. -/
theorem toJson_faithful :
    (∀ (text : String) (e : Expr), parse? text = some e →
      ofJson? e.toJson = some e ∧ parse? e.toJson.render = some e) ∧
    (∀ e : Expr, e.Named → e.toJson.depth ≤ Json.maxDepth →
      ofJson? e.toJson = some e ∧ parse? e.toJson.render = some e) ∧
    (∀ d e : Expr, d.Named → e.Named →
      (d.toJson = e.toJson ∨ d.toJson.render = e.toJson.render) → d = e) := by
  have hround : ∀ e : Expr, e.Named → e.toJson.depth ≤ Json.maxDepth →
      ofJson? e.toJson = some e ∧ parse? e.toJson.render = some e := by
    intro e hnamed hdepth
    have hvalue := ofJson?_toJson hnamed hdepth
    exact ⟨hvalue, (parse?_render_toJson e).trans hvalue⟩
  refine ⟨fun text e h => ?_, hround, fun d e hd he h => ?_⟩
  · obtain ⟨hnamed, hdepth⟩ := named_of_parse? h
    exact hround e hnamed hdepth
  · refine toJson_inj hd he (h.elim id fun htext => ?_)
    have hread := Json.parse?_render (exact_toJson d)
    rw [htext, Json.parse?_render (exact_toJson e)] at hread
    exact (Option.some.inj hread).symm

/-- A tree with arguments, a negative bias, the largest constant and an
operator of two widths. -/
theorem toJson_faithful_getI :
    parse? (getI ⟨0xffffffffffffffff, .f64, 8⟩
        (ccall "helper" .i64 [const (.u64 0xffffffffffffffff),
          unop (Op.parse "Iop_DivModU128to64") (rdTmp 0)]) (-3)).toJson.render =
      some (getI ⟨0xffffffffffffffff, .f64, 8⟩
        (ccall "helper" .i64 [const (.u64 0xffffffffffffffff),
          unop (Op.parse "Iop_DivModU128to64") (rdTmp 0)]) (-3)) := by
  refine (toJson_faithful.2.1 _ ?_ (by decide)).2
  simp [Named, ops, opsAll]

end Expr

end SymLift.IR
