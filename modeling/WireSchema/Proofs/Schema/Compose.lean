import WireSchema.Proofs.Schema.Sound

/-! Two schemas one behind the other. Each pass over both runs over the first as if it were
alone, then over the second: a comment ends with its line, and what is left of a schema
that is read holds no start of a block that the second could complete. So both together
define what each defines, unless a name is in both; then the later one is at fault. -/

namespace WireSchema

open Text (Blanks)

namespace Schema

open Outcome

/-! ### Sizes -/

theorem size_blankChar (c : Char) : Utf8.size (blankChar c) = c.utf8Size := by
  rw [blankChar]
  split
  · next h => rw [h]; rfl
  · generalize c.utf8Size = n
    induction n with
    | zero => rfl
    | succ n ih =>
      rw [List.replicate_succ, Utf8.size_cons, ih, Nat.add_comm]
      rfl

theorem size_strip : (∀ text, Utf8.size (stripComments text) = Utf8.size text) ∧
    ∀ text, Utf8.size (stripComment text) = Utf8.size text := by
  apply stripComments.mutual_induct
  · rfl
  · intro rest ih
    simp only [stripComments, Utf8.size_cons, ih]
    rfl
  · intro c rest hne ih
    rw [stripComments.eq_3 c rest hne, Utf8.size_cons, Utf8.size_cons, ih]
  · rfl
  · intro rest ih
    simp only [stripComment, Utf8.size_cons, ih]
  · intro c rest hne ih
    rw [stripComment.eq_3 c rest hne, Utf8.size_append, size_blankChar, Utf8.size_cons, ih]

section Blocks
variable {find : List Char → Option (Block × Nat)}

/-- What is left has the size of the text, and every block starts inside the text. -/
theorem cutBlocks_size (before : Option Char) (offset skip : Nat) (text : List Char) :
    Utf8.size (cutBlocks find before offset skip text).2 = Utf8.size text ∧
      ∀ block ∈ (cutBlocks find before offset skip text).1,
        offset ≤ block.1 ∧ block.1 < offset + Utf8.size text := by
  induction text generalizing before offset skip with
  | nil => exact ⟨rfl, by simp [cutBlocks]⟩
  | cons c rest ih =>
    have hpos := c.utf8Size_pos
    have hlater {start : Nat} (h : offset + c.utf8Size ≤ start ∧
        start < offset + c.utf8Size + Utf8.size rest) :
        offset ≤ start ∧ start < offset + Utf8.size (c :: rest) := by
      rw [Utf8.size_cons]
      omega
    cases skip with
    | succ skip =>
      obtain ⟨hsize, hblocks⟩ := ih (some c) (offset + c.utf8Size) skip
      exact ⟨by rw [cutBlocks, Utf8.size_append, size_blankChar, hsize, Utf8.size_cons],
        fun block h => hlater (hblocks block h)⟩
    | zero =>
      obtain ⟨hsize, hblocks⟩ := ih (some c) (offset + c.utf8Size) 0
      rw [cutBlocks]
      split
      · exact ⟨by rw [Utf8.size_cons, hsize, Utf8.size_cons],
          fun block h => hlater (hblocks block h)⟩
      · next b length _ =>
        split
        · obtain ⟨hsize, hblocks⟩ := ih (some c) (offset + c.utf8Size) (length - 1)
          refine ⟨by rw [Utf8.size_append, size_blankChar, hsize, Utf8.size_cons], ?_⟩
          intro block h
          obtain rfl | h := List.mem_cons.1 h
          · rw [Utf8.size_cons]
            omega
          · exact hlater (hblocks block h)
        · exact ⟨by rw [Utf8.size_cons, hsize, Utf8.size_cons],
            fun block h => hlater (hblocks block h)⟩

end Blocks

/-! ### The seam -/

/-- A comment ends with its line. -/
theorem strip_append (b : List Char) :
    (∀ a, stripComments (a ++ '\n' :: b) = stripComments a ++ '\n' :: stripComments b) ∧
      ∀ a, stripComment (a ++ '\n' :: b) = stripComment a ++ '\n' :: stripComments b := by
  apply stripComments.mutual_induct
  · exact stripComments.eq_3 '\n' b fun _ h => absurd h (by decide)
  · intro rest ih
    simp only [List.cons_append, stripComments, ih]
  · intro c rest hne ih
    rw [List.cons_append, stripComments.eq_3 c rest hne, stripComments.eq_3, ih, List.cons_append]
    intro more hc hrest
    cases rest with
    | nil => exact absurd hrest (by simp)
    | cons d rest =>
      obtain ⟨rfl, -⟩ := List.cons.inj hrest
      exact hne rest hc rfl
  · rw [List.nil_append, stripComment, stripComment, List.nil_append]
  · intro rest ih
    simp only [List.cons_append, stripComment, ih]
  · intro c rest hne ih
    rw [List.cons_append, stripComment.eq_3 c _ hne, stripComment.eq_3 c rest hne, ih,
      List.append_assoc]

section Seam
variable {find : List Char → Option (Block × Nat)} {Whole : Block → Prop} {keyword : String}
  {Inside : List Char → Prop}

/-- Blocks are found in the first text as if it were alone, and in the second from there on. -/
theorem cutBlocks_seam (hf : Finder find Whole keyword Inside) {before : Option Char}
    {a : List Char} (h : Run find keyword Inside before a) (offset : Nat) (b : List Char)
    (hspent : Spent (cutBlocks find before offset 0 a).2) :
    cutBlocks find before offset 0 (a ++ '\n' :: b) =
      ((cutBlocks find before offset 0 a).1 ++
          (cutBlocks find (some '\n') (offset + Utf8.size a + 1) 0 b).1,
        (cutBlocks find before offset 0 a).2 ++
          '\n' :: (cutBlocks find (some '\n') (offset + Utf8.size a + 1) 0 b).2) := by
  induction h generalizing offset with
  | @nil before =>
    have hnone : find ('\n' :: b) = none := by
      by_contra hsome
      obtain ⟨-, c, hc, -⟩ := hf.straddles [] b hf.nothing hsome
      cases hc
    rw [List.nil_append, cutBlocks_keep offset fun _ => hnone]
    rfl
  | @keep before c rest kept more ih =>
    have hkept : mayStart before → find (c :: (rest ++ '\n' :: b)) = none := fun hstart => by
      by_contra hsome
      -- nothing is cut out of a text without a closing brace, so it would be left
      obtain ⟨hclose, d, hd, hblank⟩ := hf.straddles (c :: rest) b (kept hstart) hsome
      obtain ⟨-, hleft⟩ := ((Run.keep kept more).cut offset).of_notMem hclose
      rw [hleft] at hspent
      exact hblank (hspent _ List.suffix_rfl hclose d (List.mem_of_head? hd))
    rw [cutBlocks_keep offset kept] at hspent ⊢
    rw [List.cons_append, cutBlocks_keep offset hkept, ih _ (Spent.suffix (a := [c]) hspent)]
    simp [Nat.add_assoc]
  | @block before block piece rest found start written body _ ih =>
    have hagain := hf.again block piece (rest ++ '\n' :: b) written body
    rw [cutBlocks_found offset written.ne_nil found start] at hspent ⊢
    rw [List.append_assoc, cutBlocks_found offset written.ne_nil hagain start,
      ih _ hspent.suffix]
    simp [Nat.add_assoc]

/-- The same with the second text by itself. -/
theorem blocks_seam (hf : Finder find Whole keyword Inside) (a b : List Char)
    (hwhole : ∀ block ∈ (blocks find 0 a).1, Whole block.2) (hspent : Spent (blocks find 0 a).2) :
    blocks find 0 (a ++ '\n' :: b) =
      ((blocks find 0 a).1 ++
          (blocks find 0 b).1.map (fun block => (Utf8.size a + 1 + block.1, block.2)),
        (blocks find 0 a).2 ++ '\n' :: (blocks find 0 b).2) := by
  have hstart : mayStart (some '\n') = mayStart none := by decide +kernel
  have hshift := cutBlocks_shift find hstart (Utf8.size a + 1) 0 0 b
  have hseam := cutBlocks_seam hf (hf.run 0 hwhole) 0 b hspent
  rw [Nat.zero_add, hshift] at hseam
  exact hseam

end Seam

variable {a b : List Char} {ss ss' : List StructDef} {es es' : List EnumDef}

/-- Blocks of the second text where they stand behind the first. -/
def behind (a : List Char) (found : List (Nat × Block)) : List (Nat × Block) :=
  found.map fun block => (Utf8.size a + 1 + block.1, block.2)

theorem map_snd_behind (a : List Char) (found : List (Nat × Block)) :
    (behind a found).map Prod.snd = found.map Prod.snd := by
  rw [behind, List.map_map]
  rfl

/-- A block behind the first text starts at some offset of the second. -/
theorem mem_behind {find : List Char → Option (Block × Nat)} {text : List Char}
    {block : Nat × Block} (h : block ∈ behind a (blocks find 0 text).1) :
    ∃ offset, offset < Utf8.size text ∧ block.1 = Utf8.size a + 1 + offset := by
  obtain ⟨⟨offset, b⟩, hmem, rfl⟩ := List.mem_map.1 h
  have hlt := ((cutBlocks_size none 0 0 text).2 (offset, b) hmem).2
  exact ⟨offset, by rwa [Nat.zero_add] at hlt, rfl⟩

theorem size_structBlocks (a : List Char) : Utf8.size (structBlocks a).2 = Utf8.size a :=
  (cutBlocks_size none 0 0 _).1.trans (size_strip.1 a)

theorem structBlocks_append (h : Defines a ss es) (b : List Char) :
    structBlocks (a ++ '\n' :: b) =
      ((structBlocks a).1 ++ behind a (structBlocks b).1,
        (structBlocks a).2 ++ '\n' :: (structBlocks b).2) := by
  have hspent : Spent (structBlocks a).2 := (enumAt?_cut _).spent h.left
  have hseam := blocks_seam structAt?_finder (stripComments a) (stripComments b)
    (closed_of_forall₂ h.structs) hspent
  rw [size_strip.1] at hseam
  rw [structBlocks, (strip_append b).1]
  exact hseam

theorem enumBlocks_append (h : Defines a ss es) (b : List Char) :
    enumBlocks (a ++ '\n' :: b) =
      ((enumBlocks a).1 ++ behind a (enumBlocks b).1,
        (enumBlocks a).2 ++ '\n' :: (enumBlocks b).2) := by
  have hseam := blocks_seam enumAt?_finder (structBlocks a).2 (structBlocks b).2
    (fun _ _ => trivial) (spent_of_blanks h.left)
  rw [size_structBlocks] at hseam
  rw [enumBlocks, structBlocks_append h]
  exact hseam

/-- Both texts together define what each defines. -/
theorem Defines.append (ha : Defines a ss es) (hb : Defines b ss' es')
    (hstructs : ((ss ++ ss').map (·.name)).Nodup) (henums : ((es ++ es').map (·.name)).Nodup) :
    Defines (a ++ '\n' :: b) (ss ++ ss') (es ++ es') where
  structs := by
    rw [structBlocks_append ha, List.map_append, map_snd_behind]
    exact List.rel_append ha.structs hb.structs
  enums := by
    rw [enumBlocks_append ha, List.map_append, map_snd_behind]
    exact List.rel_append ha.enums hb.enums
  structNames := hstructs
  enumNames := henums
  left := by
    rw [enumBlocks_append ha]
    exact ha.left.append (hb.left.cons (by decide))

/-! ### Names in both texts -/

end Schema

namespace Document

/-- The definitions of both. -/
def union (a b : Document) : Document := ⟨a.structs.union b.structs, a.enums.union b.enums⟩

/-- No name is in both, as that of a struct or as that of an enum. -/
def Apart (a b : Document) : Prop := a.structs.Apart b.structs ∧ a.enums.Apart b.enums

/-- A name that is in both, and what is said about it. -/
inductive Clash (a b : Document) : Schema.SyntaxCause → Prop
  | struct {name : String} (ha : a.structs.contains name = true)
      (hb : b.structs.contains name = true) : Clash a b (.structTwice name)
  | enum {name : String} (ha : a.enums.contains name = true)
      (hb : b.enums.contains name = true) : Clash a b (.enumTwice name)

theorem union_comm {a b : Document} (h : a.Apart b) : a.union b = b.union a := by
  rw [union, union, Table.union_comm h.1, Table.union_comm h.2]

end Document

namespace Schema

open Outcome

theorem documentOf_append :
    documentOf (ss ++ ss') (es ++ es') = (documentOf ss es).union (documentOf ss' es') := by
  have hs := Table.addAll_append .empty (ss.map StructDef.row) (ss'.map StructDef.row)
  have he := Table.addAll_append .empty (es.map EnumDef.row) (es'.map EnumDef.row)
  rw [Table.addAll_eq_union (Table.addAll _ _)] at hs he
  rw [documentOf, List.map_append, List.map_append]
  exact congrArg₂ Document.mk hs he

/-- Of blocks behind blocks, the first whose name is shared is at fault. -/
theorem Collects.run_clash {α : Type} {text : List Char} {twice : String → SyntaxCause}
    {name : α → String} {Is : Block → α → Prop}
    {run : Table α → List (Nat × Block) → Except Fault (Table α)}
    {found found' : List (Nat × Block)} {vs ws : List α} (h : Collects text twice name Is run)
    (hvs : List.Forall₂ Is (found.map Prod.snd) vs) (hws : List.Forall₂ Is (found'.map Prod.snd) ws)
    (hnames : (vs.map name).Nodup) (hnames' : (ws.map name).Nodup)
    (hclash : ¬(Table.addAll .empty (vs.map fun v => (name v, v))).Apart
      (Table.addAll .empty (ws.map fun v => (name v, v)))) :
    ∃ block ∈ found',
      (Table.addAll .empty (vs.map fun v => (name v, v))).contains block.2.name = true ∧
        (Table.addAll .empty (ws.map fun v => (name v, v))).contains block.2.name = true ∧
          run .empty (found ++ found') = faultAt text block.1 (twice block.2.name) := by
  obtain ⟨key, hkey, hkey'⟩ := Table.exists_shared hclash
  obtain ⟨w, hw, rfl⟩ := List.mem_map.1 (Table.contains_named.1 hkey')
  obtain ⟨block, hblock, v, hv, hname, htwice, hfault⟩ :=
    h.exists_again hws hnames' ⟨w, hw, hkey⟩
  refine ⟨block, hblock, htwice, ?_, ?_⟩
  · exact Table.contains_named.2 (hname ▸ List.mem_map_of_mem hv)
  · rw [h.run_append hvs (Table.fresh_empty.2 hnames), hfault]

/-- Two schemas that share no name are read together. -/
theorem document_append (ha : Defines a ss es) (hb : Defines b ss' es')
    (h : (documentOf ss es).Apart (documentOf ss' es')) :
    document (a ++ '\n' :: b) = .ok ((documentOf ss es).union (documentOf ss' es')) := by
  have happend := ha.append hb (Table.Apart.nodup ha.structNames hb.structNames h.1)
    (Table.Apart.nodup ha.enumNames hb.enumNames h.2)
  exact document_eq_ok.2 ⟨_, _, happend, documentOf_append.symm⟩

theorem document_structs_error {text : List Char} {fault : Fault}
    (h : structsOfBlocks text .empty (structBlocks text).1 = .error fault) :
    document text = .error fault :=
  bind_eq_error.2 (.inl h)

theorem document_enums_error {text : List Char} {fault : Fault} {structs : Table StructDef}
    (hs : structsOfBlocks text .empty (structBlocks text).1 = .ok structs)
    (h : enumsOfBlocks text .enumTwice .empty (enumBlocks text).1 = .error fault) :
    document text = .error fault :=
  bind_eq_error.2 (.inr ⟨structs, hs, bind_eq_error.2 (.inl h)⟩)

/-- A struct that is in both is at fault where the second text takes its name again. -/
theorem document_append_structTwice (ha : Defines a ss es) (hb : Defines b ss' es')
    (h : ¬(documentOf ss es).structs.Apart (documentOf ss' es').structs) :
    ∃ cause offset, (documentOf ss es).Clash (documentOf ss' es') cause ∧ offset < Utf8.size b ∧
      document (a ++ '\n' :: b) =
        faultAt (a ++ '\n' :: b) (Utf8.size a + 1 + offset) cause := by
  have hstructs : List.Forall₂ Block.IsStruct ((behind a (structBlocks b).1).map Prod.snd) ss' := by
    rw [map_snd_behind]
    exact hb.structs
  obtain ⟨block, hblock, hin, hin', hfault⟩ :=
    (structsOfBlocks_collects (a ++ '\n' :: b)).run_clash ha.structs hstructs ha.structNames
      hb.structNames h
  obtain ⟨offset, hlt, hat⟩ := mem_behind hblock
  rw [size_strip.1] at hlt
  refine ⟨_, offset, .struct hin hin', hlt, document_structs_error ?_⟩
  rw [structBlocks_append ha, hfault, hat]
  rfl

/-- So is an enum, where no struct is in both. -/
theorem document_append_enumTwice (ha : Defines a ss es) (hb : Defines b ss' es')
    (hs : (documentOf ss es).structs.Apart (documentOf ss' es').structs)
    (h : ¬(documentOf ss es).enums.Apart (documentOf ss' es').enums) :
    ∃ cause offset, (documentOf ss es).Clash (documentOf ss' es') cause ∧ offset < Utf8.size b ∧
      document (a ++ '\n' :: b) =
        faultAt (a ++ '\n' :: b) (Utf8.size a + 1 + offset) cause := by
  have hread : structsOfBlocks (a ++ '\n' :: b) .empty (structBlocks (a ++ '\n' :: b)).1 =
      .ok (Table.addAll .empty ((ss ++ ss').map StructDef.row)) := by
    refine (structsOfBlocks_collects _).eq_ok.2 ⟨ss ++ ss', ?_,
      Table.fresh_empty.2 (Table.Apart.nodup ha.structNames hb.structNames hs), rfl⟩
    rw [structBlocks_append ha, List.map_append, map_snd_behind]
    exact List.rel_append ha.structs hb.structs
  have henums : List.Forall₂ Block.IsEnum ((behind a (enumBlocks b).1).map Prod.snd) es' := by
    rw [map_snd_behind]
    exact hb.enums
  obtain ⟨block, hblock, hin, hin', hfault⟩ :=
    (enumsOfBlocks_collects (a ++ '\n' :: b) .enumTwice).run_clash ha.enums henums ha.enumNames
      hb.enumNames h
  obtain ⟨offset, hlt, hat⟩ := mem_behind hblock
  rw [size_structBlocks] at hlt
  refine ⟨_, offset, .enum hin hin', hlt, document_enums_error hread ?_⟩
  rw [enumBlocks_append ha, hfault, hat]
  rfl

theorem document_append_clash (ha : Defines a ss es) (hb : Defines b ss' es')
    (h : ¬(documentOf ss es).Apart (documentOf ss' es')) :
    ∃ cause offset, (documentOf ss es).Clash (documentOf ss' es') cause ∧ offset < Utf8.size b ∧
      document (a ++ '\n' :: b) =
        faultAt (a ++ '\n' :: b) (Utf8.size a + 1 + offset) cause := by
  by_cases hs : (documentOf ss es).structs.Apart (documentOf ss' es').structs
  · exact document_append_enumTwice ha hb hs fun he => h ⟨hs, he⟩
  · exact document_append_structTwice ha hb hs

end Schema

namespace Document

open Outcome Schema

/-- The bounds of both are in order when those of each are. -/
theorem checkDocument_union {a b : Document} (h : a.Apart b) :
    checkDocument (a.union b) = .ok () ↔ checkDocument a = .ok () ∧ checkDocument b = .ok () := by
  simp only [checkDocument, forM_eq_ok, union, Table.mem_values_union h.1, or_imp, forall_and]

theorem compile_eq_ok {text : String} {d : Document} (h : parse text = .ok d) :
    compile text = .ok d ↔ checkDocument d = .ok () := by
  rw [compile, h, ok_bind, bind_eq_ok]
  constructor
  · rintro ⟨_, hcheck, -⟩
    exact hcheck
  · exact fun hcheck => ⟨(), hcheck, rfl⟩

/-- Two schemas with a line feed between are read, and accepted, as one when they share no name,
in either order; when they share one, the fault is in the second. -/
theorem parse_append {a b : String} {da db : Document} (ha : parse a = .ok da)
    (hb : parse b = .ok db) :
    (da.Apart db →
      parse (a ++ "\n" ++ b) = .ok (da.union db) ∧ parse (b ++ "\n" ++ a) = .ok (da.union db) ∧
        (compile (a ++ "\n" ++ b) = .ok (da.union db) ↔
          compile a = .ok da ∧ compile b = .ok db)) ∧
      (¬da.Apart db → ∃ cause offset, da.Clash db cause ∧ offset < Utf8.size b.toList ∧
        parse (a ++ "\n" ++ b) = .error (.badText cause
          (.ofOffset (a ++ "\n" ++ b).toList (Utf8.size a.toList + 1 + offset)))) := by
  have hlist (s t : String) : (s ++ "\n" ++ t).toList = s.toList ++ '\n' :: t.toList := by
    simp
  obtain ⟨ss, es, hdefines, rfl⟩ := document_eq_ok.1 ha
  obtain ⟨ss', es', hdefines', rfl⟩ := document_eq_ok.1 hb
  constructor
  · intro h
    have hboth : parse (a ++ "\n" ++ b) = .ok ((documentOf ss es).union (documentOf ss' es')) := by
      rw [parse, hlist]
      exact document_append hdefines hdefines' h
    have hswap : parse (b ++ "\n" ++ a) = .ok ((documentOf ss es).union (documentOf ss' es')) := by
      rw [parse, hlist, union_comm h]
      exact document_append hdefines' hdefines ⟨h.1.symm, h.2.symm⟩
    refine ⟨hboth, hswap, ?_⟩
    rw [compile_eq_ok hboth, compile_eq_ok ha, compile_eq_ok hb, checkDocument_union h]
  · intro h
    obtain ⟨cause, offset, hclash, hlt, hfault⟩ := document_append_clash hdefines hdefines' h
    refine ⟨cause, offset, hclash, hlt, ?_⟩
    rw [parse, hlist]
    exact hfault

/-- A struct of one field. -/
def oneBool (name : String) : Document := documentOf [⟨"S", [⟨name, .bool, none⟩], .empty⟩] []

/-- A struct of one field, and a brace in a comment that the end of the text cuts off. -/
def oneBoolText : String := "struct S\x7bbool a;\x7d//\x7b"

/-- Behind a struct an enum of its name is read, and a struct is not. -/
theorem parse_append_sample :
    (parse (oneBoolText ++ "\n" ++ "enum S { A; }") =
        .ok ((oneBool "a").union (documentOf [] [⟨"S", [⟨"A", 0⟩]⟩])) ∧
      parse ("enum S { A; }" ++ "\n" ++ oneBoolText) =
        .ok ((oneBool "a").union (documentOf [] [⟨"S", [⟨"A", 0⟩]⟩])) ∧
      (compile (oneBoolText ++ "\n" ++ "enum S { A; }") =
          .ok ((oneBool "a").union (documentOf [] [⟨"S", [⟨"A", 0⟩]⟩])) ↔
        compile oneBoolText = .ok (oneBool "a") ∧
          compile "enum S { A; }" = .ok (documentOf [] [⟨"S", [⟨"A", 0⟩]⟩]))) ∧
      ∃ cause offset, (oneBool "a").Clash (oneBool "b") cause ∧
        offset < Utf8.size "struct S { bool b; }".toList ∧
          parse (oneBoolText ++ "\n" ++ "struct S { bool b; }") =
            .error (.badText cause (.ofOffset
              (oneBoolText ++ "\n" ++ "struct S { bool b; }").toList
              (Utf8.size oneBoolText.toList + 1 + offset))) := by
  have hstruct : parse oneBoolText = .ok (oneBool "a") := by decide +kernel
  have henum : parse "enum S { A; }" = .ok (documentOf [] [⟨"S", [⟨"A", 0⟩]⟩]) := by
    decide +kernel
  have htwice : parse "struct S { bool b; }" = .ok (oneBool "b") := by decide +kernel
  refine ⟨(parse_append hstruct henum).1 ⟨?_, ?_⟩, (parse_append hstruct htwice).2 ?_⟩
  · exact fun key hboth => Bool.false_ne_true hboth.2
  · exact fun key hboth => Bool.false_ne_true hboth.1
  · exact fun h => h.1 "S" ⟨by decide +kernel, by decide +kernel⟩

end Document

end WireSchema
