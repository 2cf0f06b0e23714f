import MailTemplate.Compile.Inherit
import MailTemplate.Proofs.Text.Pieces

/-! Where the characters of a joined text come from. Every character carries a mark; what is
filled in brings its own marks, and what stays keeps them. Without the marks, the operations are
those on texts. -/

namespace MailTemplate

/-- A text of which every character is marked with where it comes from. -/
abbrev Marked (β : Type) := List (Char × β)

namespace Marked

variable {β : Type}

def plain (marked : Marked β) : Text := marked.map Prod.fst

def ofText (origin : β) (text : Text) : Marked β := text.map (·, origin)

def origin? [DecidableEq β] : Marked β → Option β
  | [] => none
  | (_, origin) :: rest => if rest.all (·.2 = origin) then some origin else none

@[simp] theorem plain_nil : plain ([] : Marked β) = [] := rfl

@[simp] theorem plain_append (front back : Marked β) :
    plain (front ++ back) = plain front ++ plain back := List.map_append

@[simp] theorem plain_ofText (origin : β) (text : Text) : plain (ofText origin text) = text := by
  simp [plain, ofText, Function.comp_def]

theorem plain_take (n : Nat) (marked : Marked β) : plain (marked.take n) = (plain marked).take n :=
  List.map_take

theorem plain_drop (n : Nat) (marked : Marked β) : plain (marked.drop n) = (plain marked).drop n :=
  List.map_drop

theorem origin?_eq_some_iff [DecidableEq β] {marked : Marked β} {origin : β} :
    marked.origin? = some origin ↔ marked ≠ [] ∧ ∀ mark ∈ marked, mark.2 = origin := by
  cases marked with
  | nil => simp [origin?]
  | cons mark rest =>
    rw [origin?, List.forall_mem_cons]
    split
    · next hall =>
      have hrest := List.all_eq_true.1 hall
      constructor
      · rintro ⟨⟩
        exact ⟨List.cons_ne_nil _ _, rfl, fun mark hm => of_decide_eq_true (hrest mark hm)⟩
      · rintro ⟨-, rfl, -⟩
        rfl
    · next hall =>
      constructor
      · nofun
      · rintro ⟨-, rfl, hrest⟩
        exact absurd (List.all_eq_true.2 fun mark hm => decide_eq_true (hrest mark hm)) hall

end Marked

namespace Pattern

section
variable {α β : Type} (pattern : Pattern α)

def cuts : List (Piece α) → Marked β → List (Piece α × Marked β)
  | [], _ => []
  | piece :: pieces, marked =>
    let size := (pattern.pieceText piece).length
    (piece, marked.take size) :: cuts pieces (marked.drop size)

/-- The pieces of a marked text, each with its characters. -/
def markedPieces (marked : Marked β) : List (Piece α × Marked β) :=
  pattern.cuts (pattern.pieces marked.plain) marked

/-- A piece with its marks, or what is given for it if it is an item. -/
def fillMarked (given : α → Marked β) : Piece α × Marked β → Marked β
  | (.char _, part) => part
  | (.item item, _) => given item

/-- The text with every match replaced; all other characters keep their marks. -/
def replaceMarked (given : α → Marked β) (marked : Marked β) : Marked β :=
  (pattern.markedPieces marked).flatMap (fillMarked given)

def removeFirstMarked (marked : Marked β) : Marked β :=
  match pattern.first? marked.plain with
  | some (before, item, _) =>
    marked.take before.length ++ marked.drop (before.length + (pattern.text item).length)
  | none => marked

variable {pattern}

theorem map_fst_cuts (pieces : List (Piece α)) (marked : Marked β) :
    (pattern.cuts pieces marked).map Prod.fst = pieces := by
  induction pieces generalizing marked with
  | nil => rfl
  | cons piece pieces ih => exact congrArg (piece :: ·) (ih _)

theorem map_fst_markedPieces (marked : Marked β) :
    (pattern.markedPieces marked).map Prod.fst = pattern.pieces marked.plain :=
  map_fst_cuts _ _

theorem plain_flatMap_cuts (given : α → Marked β) {pieces : List (Piece α)} {marked : Marked β}
    (h : marked.plain = pieces.flatMap pattern.pieceText) :
    Marked.plain ((pattern.cuts pieces marked).flatMap (fillMarked given)) =
      pieces.flatMap (fill fun item => (given item).plain) := by
  induction pieces generalizing marked with
  | nil => rfl
  | cons piece pieces ih =>
    rw [List.flatMap_cons] at h
    have hpart : Marked.plain (marked.take (pattern.pieceText piece).length) =
        pattern.pieceText piece := by
      rw [Marked.plain_take, h, List.take_left]
    have hrest : Marked.plain (marked.drop (pattern.pieceText piece).length) =
        pieces.flatMap pattern.pieceText := by
      rw [Marked.plain_drop, h, List.drop_left]
    rw [cuts, List.flatMap_cons, List.flatMap_cons, Marked.plain_append, ih hrest]
    cases piece with
    | char c => exact congrArg (· ++ _) hpart
    | item item => rfl

theorem plain_replaceMarked (given : α → Marked β) (marked : Marked β) :
    (pattern.replaceMarked given marked).plain =
      pattern.replace (fun item => (given item).plain) marked.plain :=
  plain_flatMap_cuts given (pattern.flatMap_pieceText_pieces marked.plain).symm

theorem plain_removeFirstMarked (marked : Marked β) :
    (pattern.removeFirstMarked marked).plain = pattern.removeFirst marked.plain := by
  unfold removeFirstMarked removeFirst
  cases hfirst : pattern.first? marked.plain with
  | none => rfl
  | some found =>
    obtain ⟨before, item, rest⟩ := found
    have htext := pattern.eq_append_of_first? hfirst
    have hfront : (Marked.plain marked).take before.length = before := by
      rw [htext, List.append_assoc, List.take_left]
    have hback : (Marked.plain marked).drop (before.length + (pattern.text item).length) = rest := by
      rw [htext, ← List.length_append, List.drop_left]
    simp only [Marked.plain_append, Marked.plain_take, Marked.plain_drop, hfront, hback]

theorem mem_replaceMarked {given : α → Marked β} {marked : Marked β} {mark : Char × β}
    (h : mark ∈ pattern.replaceMarked given marked) :
    mark ∈ marked ∨ ∃ item, mark ∈ given item := by
  have hcuts : ∀ (pieces : List (Piece α)) (marked : Marked β),
      mark ∈ (pattern.cuts pieces marked).flatMap (fillMarked given) →
        mark ∈ marked ∨ ∃ item, mark ∈ given item := by
    intro pieces
    induction pieces with
    | nil => exact fun _ hm => absurd hm List.not_mem_nil
    | cons piece pieces ih =>
      intro marked hm
      rw [cuts, List.flatMap_cons, List.mem_append] at hm
      rcases hm with hm | hm
      · cases piece with
        | char c => exact .inl (List.mem_of_mem_take hm)
        | item item => exact .inr ⟨item, hm⟩
      · exact (ih _ hm).imp_left List.mem_of_mem_drop
  exact hcuts _ _ h

theorem mem_removeFirstMarked {marked : Marked β} {mark : Char × β}
    (h : mark ∈ pattern.removeFirstMarked marked) : mark ∈ marked := by
  unfold removeFirstMarked at h
  split at h
  · exact (List.mem_append.1 h).elim List.mem_of_mem_take List.mem_of_mem_drop
  · exact h

end
end Pattern

namespace Layout

section
variable {β : Type}

/-- A layout with the blocks of a name replaced by the content of an override, which comes from where
the override does. -/
def fillMarked (layout : Marked β) (block : Override × β) : Marked β :=
  (Block.named block.1.name).replaceMarked (fun _ => .ofText block.2 block.1.content) layout

def assembleMarked (layout : Marked β) (overrides : List (Override × β)) : Marked β :=
  Block.blank.replaceMarked (fun _ => [])
    (extendsTag.removeFirstMarked (overrides.foldl fillMarked layout))

def supplementMarked (overrides more : List (Override × β)) : List (Override × β) :=
  more.foldl (fun overrides new =>
    if overrides.any (·.1.name == new.1.name) then overrides else overrides ++ [new]) overrides

theorem plain_foldl_fillMarked (layout : Marked β) (overrides : List (Override × β)) :
    (overrides.foldl fillMarked layout).plain =
      (overrides.map Prod.fst).foldl fill layout.plain := by
  induction overrides generalizing layout with
  | nil => rfl
  | cons new overrides ih =>
    have hfill : (fillMarked layout new).plain = fill layout.plain new.1 := by
      rw [fillMarked, Pattern.plain_replaceMarked]
      simp only [Marked.plain_ofText]
      rfl
    rw [List.foldl_cons, List.map_cons, List.foldl_cons, ih, hfill]

theorem plain_assembleMarked (layout : Marked β) (overrides : List (Override × β)) :
    (assembleMarked layout overrides).plain = assemble layout.plain (overrides.map Prod.fst) := by
  rw [assembleMarked, Pattern.plain_replaceMarked, Pattern.plain_removeFirstMarked,
    plain_foldl_fillMarked]
  rfl

theorem map_fst_supplementMarked (overrides more : List (Override × β)) :
    (supplementMarked overrides more).map Prod.fst =
      supplement (overrides.map Prod.fst) (more.map Prod.fst) := by
  induction more generalizing overrides with
  | nil => rfl
  | cons new more ih =>
    have hknown : (overrides.map Prod.fst).any (·.name == new.1.name) =
        overrides.any (·.1.name == new.1.name) := List.any_map
    rw [List.map_cons, supplementMarked, supplement, List.foldl_cons, List.foldl_cons,
      ← supplementMarked, ← supplement, hknown, ih]
    split
    · rfl
    · rw [List.map_append, List.map_singleton]

theorem mem_assembleMarked {layout : Marked β} {overrides : List (Override × β)} {mark : Char × β}
    (h : mark ∈ assembleMarked layout overrides) :
    mark ∈ layout ∨ ∃ new ∈ overrides, mark.2 = new.2 := by
  have hfilled : mark ∈ overrides.foldl fillMarked layout := by
    rcases Pattern.mem_replaceMarked h with hm | ⟨-, hm⟩
    · exact Pattern.mem_removeFirstMarked hm
    · cases hm
  clear h
  induction overrides generalizing layout with
  | nil => exact .inl hfilled
  | cons new overrides ih =>
    rcases ih hfilled with hm | ⟨other, hother, hmark⟩
    · rcases Pattern.mem_replaceMarked hm with hm | ⟨-, hm⟩
      · exact .inl hm
      · obtain ⟨c, -, rfl⟩ := List.mem_map.1 hm
        exact .inr ⟨new, List.mem_cons_self, rfl⟩
    · exact .inr ⟨other, List.mem_cons_of_mem _ hother, hmark⟩

theorem mem_supplementMarked {overrides more : List (Override × β)} {new : Override × β}
    (h : new ∈ supplementMarked overrides more) : new ∈ overrides ∨ new ∈ more := by
  induction more generalizing overrides with
  | nil => exact .inl h
  | cons first more ih =>
    rcases ih h with hm | hm
    · dsimp only at hm
      split at hm
      · exact .inl hm
      · rcases List.mem_append.1 hm with hm | hm
        · exact .inl hm
        · exact .inr (List.mem_singleton.1 hm ▸ List.mem_cons_self)
    · exact .inr (List.mem_cons_of_mem _ hm)

end
end Layout
end MailTemplate
