import MailTemplate.Proofs.Compile.Expansion
import MailTemplate.Proofs.Compile.Lineage
import MailTemplate.Proofs.Template.Marked

/-! From where the include tags of a joined text are looked up. The templates of a chain are joined to
one text, and its tags are looked up from the directory of the leaf, also those that stand in a layout.
So a tag of a layout gives way to the file that it names there exactly if it names the same file from
the leaf. -/

namespace MailTemplate

namespace Layout

section
variable (files : FileSystem) (config : Config)

/-- The text that `climb` gives, every character marked with the template that it stands in. -/
def climbMarked (leaf : Text) (parent : Text) (overrides : List (Override × Template))
    (chain : List Text) : Except CompileError (Marked Template) :=
  if parent ∈ chain then .error (.circular parent)
  else if _ : config.maxDepth < chain.length then .error (.depthExceeded leaf config.maxDepth)
  else match Source.load files config parent with
    | .error e => .error e
    | .ok layout => match parent? layout.text with
      | none => .ok (assembleMarked (.ofText layout layout.text) overrides)
      | some next =>
        climbMarked leaf next (supplementMarked overrides ((spans layout.text).map (·, layout)))
          (chain ++ [layout.name])
termination_by config.maxDepth + 1 - chain.length
decreasing_by
  simp only [List.length_append, List.length_cons, List.length_nil]
  omega

/-- The text of a template joined with the layouts it inherits from, every character marked with the
template that it stands in. -/
def resolveMarked (template : Template) : Except CompileError (Marked Template) :=
  match parent? template.text with
  | none => .ok (.ofText template template.text)
  | some parent => climbMarked files config template.name parent
      ((bodies template.text).map (·, template)) [template.name]

end

/-- The directory of the template that a part of a joined text stands in; that of the leaf for a part
that is put together from several templates. -/
def ownDirectory (leaf : Template) (part : Marked Template) : Text :=
  Location.path (part.origin?.getD leaf).directory

section
variable {files : FileSystem} {config : Config} {reference leaf parent : Text}
  {overrides : List (Override × Template)} {chain way : List Text} {template : Template}
  {marked : Marked Template}

theorem map_plain_climbMarked : (climbMarked files config leaf parent overrides chain).map
    Marked.plain = climb files config leaf parent (overrides.map Prod.fst) chain := by
  fun_induction climbMarked files config leaf parent overrides chain with
  | case1 parent overrides chain hc => rw [climb, if_pos hc]; rfl
  | case2 parent overrides chain hc hd => rw [climb, if_neg hc, dif_pos hd]; rfl
  | case3 parent overrides chain hc hd cause hload =>
    rw [climb, if_neg hc, dif_neg hd, hload]
    rfl
  | case4 parent overrides chain hc hd layout hload hparent =>
    rw [climb, if_neg hc, dif_neg hd, hload]
    simp only [hparent]
    rw [Except.map, plain_assembleMarked, Marked.plain_ofText]
  | case5 parent overrides chain hc hd layout hload next hparent ih =>
    have hspans : ((spans layout.text).map (·, layout)).map Prod.fst = spans layout.text := by
      rw [List.map_map]
      exact List.map_id _
    rw [climb, if_neg hc, dif_neg hd, hload]
    simp only [hparent]
    rw [ih, map_fst_supplementMarked, hspans]

theorem map_plain_resolveMarked : (resolveMarked files config template).map Marked.plain =
    resolveTemplate files config template := by
  unfold resolveMarked resolveTemplate
  cases parent? template.text with
  | none => exact congrArg Except.ok (Marked.plain_ofText _ _)
  | some parent =>
    have hbodies : ((bodies template.text).map (·, template)).map Prod.fst = bodies template.text := by
      rw [List.map_map]
      exact List.map_id _
    refine map_plain_climbMarked.trans ?_
    rw [hbodies]

theorem resolveMarked_of_parent {layout : Template} (hparent : parent? template.text = some parent)
    (hne : parent ≠ template.name) (hd : 0 < config.maxDepth)
    (hlayout : Source.load files config parent = .ok layout) (hend : parent? layout.text = none) :
    resolveMarked files config template = .ok (assembleMarked (.ofText layout layout.text)
      ((bodies template.text).map (·, template))) := by
  have hdepth : ¬ config.maxDepth < [template.name].length := Nat.not_lt.2 hd
  rw [resolveMarked, hparent]
  simp only
  rw [climbMarked, if_neg (by simpa using hne), dif_neg hdepth, hlayout]
  simp only [hend]

theorem climbs_of_climbMarked (h : climbMarked files config leaf parent overrides chain = .ok marked)
    (hway : Climbs files config reference way template) (hparent : parent? template.text = some parent)
    (hoverrides : ∀ new ∈ overrides, ∃ way, Climbs files config reference way new.2) :
    ∀ mark ∈ marked, ∃ way, Climbs files config reference way mark.2 := by
  fun_induction climbMarked files config leaf parent overrides chain generalizing way template with
  | case1 => cases h
  | case2 => cases h
  | case3 => cases h
  | case4 parent overrides chain hc hd layout hload hnone =>
    cases h
    intro mark hm
    rcases mem_assembleMarked hm with hm | ⟨new, hnew, hmark⟩
    · obtain ⟨c, -, rfl⟩ := List.mem_map.1 hm
      exact ⟨_, .up hway hparent hload⟩
    · rw [hmark]
      exact hoverrides new hnew
  | case5 parent overrides chain hc hd layout hload next hnext ih =>
    have hup := Climbs.up hway hparent hload
    refine ih h hup hnext fun new hnew => ?_
    rcases mem_supplementMarked hnew with hm | hm
    · exact hoverrides new hm
    · obtain ⟨span, -, rfl⟩ := List.mem_map.1 hm
      exact ⟨_, hup⟩

theorem climbs_of_resolveMarked (hload : Source.load files config reference = .ok template)
    (h : resolveMarked files config template = .ok marked) :
    ∀ mark ∈ marked, ∃ way, Climbs files config reference way mark.2 := by
  have hhere : Climbs files config reference [] template := .here hload
  unfold resolveMarked at h
  split at h
  · cases h
    intro mark hm
    obtain ⟨c, -, rfl⟩ := List.mem_map.1 hm
    exact ⟨_, hhere⟩
  · next parent hparent =>
    refine climbs_of_climbMarked h hhere hparent fun new hnew => ?_
    obtain ⟨body, -, rfl⟩ := List.mem_map.1 hnew
    exact ⟨_, hhere⟩

end
end Layout

namespace Include

section
variable (files : FileSystem) (root : Location) (maxDepth : Nat)

/-- What a tag gives way to when it is looked up from a directory: the file that it names, and the
text of this file with files spliced into it. -/
def Gives (directory : Text) (tag : ReferenceTag "include".toList) (location : Location)
    (result : Text) : Prop :=
  ∃ body, Names files root directory tag.reference location body ∧ 0 < maxDepth ∧
    Goes files root maxDepth [location] body (Location.path location.dropLast) ∧
      Expands files root body (Location.path location.dropLast) result

/-- Parts of a joined text with every tag looked up from the directory that is chosen for it: the files
that the tags name, in order, and the text with these spliced in. -/
inductive Splices (directory : Marked Template → Text) :
    List (Piece (ReferenceTag "include".toList) × Marked Template) → List Location → Text → Prop
  | nil : Splices directory [] [] []
  | char {c : Char} {part : Marked Template} {parts located out} :
      Splices directory parts located out →
        Splices directory ((.char c, part) :: parts) located (c :: out)
  | item {tag : ReferenceTag "include".toList} {part : Marked Template} {location : Location}
      {result : Text} {parts located out} :
      Gives files root maxDepth (directory part) tag location result →
        Splices directory parts located out →
          Splices directory ((.item tag, part) :: parts) (location :: located) (result ++ out)

/-- Every tag that stands in one template names the same file from there as from the leaf. -/
def NamesAlike (leaf : Template)
    (parts : List (Piece (ReferenceTag "include".toList) × Marked Template)) : Prop :=
  ∀ tag part layout, (.item tag, part) ∈ parts → part ≠ [] → (∀ mark ∈ part, mark.2 = layout) →
    ∀ location body, Names files root (Location.path layout.directory) tag.reference location body ↔
      Names files root (Location.path leaf.directory) tag.reference location body

end

section
variable {files : FileSystem} {root location : Location} {maxDepth fuel : Nat}
  {content directory result out : Text} {visiting located : List Location}
  {tag : ReferenceTag "include".toList} {own other : Marked Template → Text}
  {parts : List (Piece (ReferenceTag "include".toList) × Marked Template)} {leaf : Template}

theorem spliceAll_eq_ok_iff (hf : (unvisited files root visiting).ncard < fuel)
    (hn : visiting.Nodup) (hd : visiting.length ≤ maxDepth) :
    (spliceAll files root maxDepth fuel content directory visiting).1 = .ok result ↔
      Goes files root maxDepth visiting content directory ∧
        Expands files root content directory result := by
  constructor
  · exact fun h => ⟨(exists_spliceAll_iff hf hn hd).1 ⟨result, h⟩, expands_of_spliceAll h⟩
  · rintro ⟨hgoes, hexpands⟩
    obtain ⟨found, hfound⟩ := (exists_spliceAll_iff hf hn hd).2 hgoes
    rw [hfound, hexpands.unique (expands_of_spliceAll hfound)]

theorem expand_eq_ok_iff_gives (hf : (unvisited files root []).ncard ≤ fuel) :
    (expand files root maxDepth fuel directory tag []).1 = .ok result ↔
      ∃ location, Gives files root maxDepth directory tag location result := by
  rw [expand_eq_ok_iff]
  refine exists_congr fun location => exists_congr fun body => ?_
  refine and_congr_right fun hnames => ?_
  have hless := hnames.unvisited_lt List.not_mem_nil
  simp only [List.not_mem_nil, not_false_eq_true, true_and, List.length_nil]
  refine and_congr_right fun hd => ?_
  exact spliceAll_eq_ok_iff (hless.trans_le hf) (List.nodup_singleton _) hd

theorem gives_of_pieces {body : Text}
    (hnames : Names files root directory tag.reference location body) (hd : 0 < maxDepth)
    (hbody : Layout.includeTag.pieces body = body.map .char) :
    Gives files root maxDepth directory tag location body := by
  have hnone : ∀ tag, tag ∉ Layout.includeTag.items body := by
    intro tag hm
    rw [Pattern.mem_items, hbody] at hm
    obtain ⟨c, -, hc⟩ := List.mem_map.1 hm
    cases hc
  have hself : Layout.includeTag.replace (fun _ => []) body = body := by
    exact Pattern.replace_eq_self _ fun item hm => absurd (Pattern.mem_items.2 hm) (hnone item)
  have hexpands : Expands files root body (Location.path location.dropLast)
      (Layout.includeTag.replace (fun _ => []) body) :=
    @Expands.tags _ _ _ _ (fun _ => location) (fun _ => body) _
      (fun tag hm => absurd hm (hnone tag)) fun tag hm => absurd hm (hnone tag)
  rw [hself] at hexpands
  exact ⟨body, hnames, hd, (goes_iff (List.nodup_singleton _) hd).2 fun tag hm =>
    absurd hm (hnone tag), hexpands⟩

theorem Gives.unique {again : Text} {other : Location}
    (h : Gives files root maxDepth directory tag location result)
    (ho : Gives files root maxDepth directory tag other again) : location = other ∧ result = again := by
  obtain ⟨body, hnames, -, -, hexpands⟩ := h
  obtain ⟨found, hnames', -, -, hexpands'⟩ := ho
  obtain ⟨rfl, rfl⟩ := hnames.unique hnames'
  exact ⟨rfl, hexpands.unique hexpands'⟩

theorem joinPieces_item_eq_ok_iff {State : Type} {state : State}
    {step : ReferenceTag "include".toList → State → Except CompileError Text × State}
    {pieces : List (Piece (ReferenceTag "include".toList))}
    (hs : (step tag state).2 = state) :
    (joinPieces step (.item tag :: pieces) state).1 = .ok out ↔ ∃ result rest,
      (step tag state).1 = .ok result ∧ (joinPieces step pieces state).1 = .ok rest ∧
        result ++ rest = out := by
  cases hstep : step tag state with
  | mk first after =>
    rw [hstep] at hs
    obtain rfl : after = state := hs
    rw [joinPieces, hstep]
    cases first with
    | error cause =>
      constructor
      · intro h
        cases h
      · rintro ⟨text, rest, h, -⟩
        cases h
    | ok text =>
      have hrest : ((joinPieces step pieces after).1.map (text ++ ·) = .ok out) ↔
          ∃ rest, (joinPieces step pieces after).1 = .ok rest ∧ text ++ rest = out := map_eq_ok_iff
      simp only [Except.ok.injEq, exists_and_left, exists_eq_left']
      exact hrest

/-- A text is spliced as all of its tags are, looked up from the one directory. -/
theorem splice_eq_ok_iff_splices (marked : Marked Template) :
    (splice files root maxDepth marked.plain directory []).1 = .ok out ↔
      ∃ located, Splices files root maxDepth (fun _ => directory)
        (Layout.includeTag.markedPieces marked) located out := by
  have hfuel : (unvisited files root []).ncard ≤ files.regularFiles.length :=
    ncard_unvisited_le files root []
  rw [splice, spliceAll_succ, ← Pattern.map_fst_markedPieces]
  generalize Layout.includeTag.markedPieces marked = parts
  induction parts generalizing out with
  | nil =>
    constructor
    · intro h
      cases h
      exact ⟨[], .nil⟩
    · rintro ⟨located, hspliced⟩
      cases hspliced
      rfl
  | cons head parts ih =>
    obtain ⟨piece, part⟩ := head
    cases piece with
    | char c =>
      refine (map_eq_ok_iff (f := (c :: ·))).trans ?_
      constructor
      · rintro ⟨rest, hrest, rfl⟩
        obtain ⟨located, hspliced⟩ := ih.1 hrest
        exact ⟨located, .char hspliced⟩
      · rintro ⟨located, hspliced⟩
        cases hspliced with
        | char hrest => exact ⟨_, ih.2 ⟨_, hrest⟩, rfl⟩
    | item tag =>
      refine (joinPieces_item_eq_ok_iff (snd_expand (snd_spliceAll _))).trans ?_
      simp only [expand_eq_ok_iff_gives hfuel]
      constructor
      · rintro ⟨result, rest, ⟨location, hgives⟩, hrest, rfl⟩
        obtain ⟨located, hspliced⟩ := ih.1 hrest
        exact ⟨location :: located, .item hgives hspliced⟩
      · rintro ⟨located, hspliced⟩
        cases hspliced with
        | item hgives hrest => exact ⟨_, _, ⟨_, hgives⟩, ih.2 ⟨_, hrest⟩, rfl⟩

theorem Splices.of_names (h : Splices files root maxDepth own parts located out)
    (hsame : ∀ tag part, (.item tag, part) ∈ parts → ∀ location body,
      Names files root (own part) tag.reference location body →
        Names files root (other part) tag.reference location body) :
    Splices files root maxDepth other parts located out := by
  induction h with
  | nil => exact .nil
  | char _ ih => exact .char (ih fun tag part hm => hsame tag part (List.mem_cons_of_mem _ hm))
  | item hgives _ ih =>
    obtain ⟨body, hnames, hrest⟩ := hgives
    exact .item ⟨body, hsame _ _ List.mem_cons_self _ _ hnames, hrest⟩
      (ih fun tag part hm => hsame tag part (List.mem_cons_of_mem _ hm))

theorem Names.iff_of_location {directory elsewhere reference body found : Text}
    (h : Names files root directory reference location body)
    (ho : Names files root elsewhere reference location found) (other : Location) (text : Text) :
    Names files root directory reference other text ↔
      Names files root elsewhere reference other text := by
  obtain rfl : body = found := by
    obtain ⟨-, -, -, -, hentry⟩ := h
    obtain ⟨-, -, -, -, hentry'⟩ := ho
    rw [hentry] at hentry'
    cases hentry'
    rfl
  constructor
  · intro hnames
    obtain ⟨rfl, rfl⟩ := hnames.unique h
    exact ho
  · intro hnames
    obtain ⟨rfl, rfl⟩ := hnames.unique ho
    exact h

theorem Splices.names_iff {again : Text} (h : Splices files root maxDepth own parts located out)
    (ho : Splices files root maxDepth other parts located again)
    {part : Marked Template} (hm : (.item tag, part) ∈ parts) (location : Location) (body : Text) :
    Names files root (own part) tag.reference location body ↔
      Names files root (other part) tag.reference location body := by
  induction h generalizing again with
  | nil => cases hm
  | char _ ih =>
    cases ho with
    | char ho =>
      rcases List.mem_cons.1 hm with heq | hm
      · cases heq
      · exact ih ho hm
  | item hgives _ ih =>
    cases ho with
    | item hothers ho =>
      rcases List.mem_cons.1 hm with heq | hm
      · cases heq
        obtain ⟨_, hnames, -⟩ := hgives
        obtain ⟨_, hnames', -⟩ := hothers
        exact hnames.iff_of_location hnames' location body
      · exact ih ho hm

/-- Looking every tag up from the template that it stands in splices the same files as looking all of
them up from the leaf exactly if the tags name the same files. -/
theorem splices_own_iff (h : Splices files root maxDepth
      (fun _ => Location.path leaf.directory) parts located out) :
    Splices files root maxDepth (Layout.ownDirectory leaf) parts located out ↔
      NamesAlike files root leaf parts := by
  constructor
  · intro hown tag part layout hm hne horigin location body
    have hsame := hown.names_iff h hm location body
    rwa [Layout.ownDirectory, Marked.origin?_eq_some_iff.2 ⟨hne, horigin⟩] at hsame
  · intro halike
    refine h.of_names fun tag part hm location body hnames => ?_
    rw [Layout.ownDirectory]
    cases horigin : part.origin? with
    | none => exact hnames
    | some layout =>
      obtain ⟨hne, hmarks⟩ := Marked.origin?_eq_some_iff.1 horigin
      exact (halike tag part layout hm hne hmarks location body).2 hnames

theorem exists_splices_own_iff (halike : NamesAlike files root leaf parts) :
    (∃ located, Splices files root maxDepth (Layout.ownDirectory leaf) parts located out) ↔
      ∃ located, Splices files root maxDepth (fun _ => Location.path leaf.directory) parts located
        out := by
  refine exists_congr fun located => ⟨fun h => ?_, fun h => (splices_own_iff h).2 halike⟩
  refine h.of_names fun tag part hm location body hnames => ?_
  rw [Layout.ownDirectory] at hnames
  cases horigin : part.origin? with
  | none => rwa [horigin] at hnames
  | some layout =>
    rw [horigin] at hnames
    obtain ⟨hne, hmarks⟩ := Marked.origin?_eq_some_iff.1 horigin
    exact (halike tag part layout hm hne hmarks location body).1 hnames

end
end Include

namespace Compiler

section
variable {files : FileSystem} {config : Config} {reference joined out : Text} {leaf : Template}
  (hload : Source.load files config reference = .ok leaf)
  (hjoined : Layout.resolveTemplate files config leaf = .ok joined)
include hload hjoined

theorem source_of_not_inlineIncludes (hi : config.inlineIncludes = false) :
    source config files reference = .ok (leaf, joined) := by
  refine bind_eq_ok_iff.2 ⟨leaf, hload, bind_eq_ok_iff.2 ⟨joined, hjoined, ?_⟩⟩
  rw [if_neg (Bool.eq_false_iff.1 hi)]
  rfl

theorem source_eq_ok_iff_splice (hi : config.inlineIncludes = true) {root : Location}
    (hroot : Source.place files config.sourceRoot = .ok root) :
    source config files reference = .ok (leaf, out) ↔ (Include.splice files root config.maxDepth
      joined (Location.path leaf.directory) []).1 = .ok out := by
  constructor
  · intro h
    obtain ⟨text, -, htext, hcases⟩ := source_eq_ok h
    rw [hjoined] at htext
    obtain rfl := Except.ok.inj htext
    rcases hcases with ⟨hoff, -⟩ | ⟨-, place, hplace, hspliced⟩
    · rw [hi] at hoff
      cases hoff
    · rw [hroot] at hplace
      obtain rfl := Except.ok.inj hplace
      exact hspliced
  · intro h
    refine bind_eq_ok_iff.2 ⟨leaf, hload, bind_eq_ok_iff.2 ⟨joined, hjoined, ?_⟩⟩
    rw [if_pos hi]
    exact bind_eq_ok_iff.2 ⟨root, hroot, bind_eq_ok_iff.2 ⟨out, h, rfl⟩⟩

end

/-- The source of a template is its joined text with every include tag looked up from the directory of
the template itself. So the tags that stand in a layout are looked up from there exactly if they name
the same files from both. -/
theorem source_own_iff (compiler : Compiler) (files : FileSystem) (reference : Text) {leaf : Template}
    {marked : Marked Template}
    (hload : Source.load files compiler.config reference = .ok leaf)
    (hmarked : Layout.resolveMarked files compiler.config leaf = .ok marked) :
    let source := source compiler.config files reference
    let parts := Layout.includeTag.markedPieces marked
    (∀ nonce write compiled, (compiler.compile files nonce reference write).result = .ok compiled →
      ∃ out, source = .ok (leaf, out) ∧ compiled = ⟨leaf.name,
        (Render.template nonce leaf.name (compiler.loadStylesheet files).1 out).1⟩) ∧
      (∀ mark ∈ marked, ∃ way, Layout.Climbs files compiler.config reference way mark.2) ∧
      (compiler.config.inlineIncludes = false → source = .ok (leaf, marked.plain)) ∧
      (compiler.config.inlineIncludes = true →
        ∃ root, Source.place files compiler.config.sourceRoot = .ok root ∧
          let Splices := Include.Splices files root compiler.config.maxDepth
          (∀ out, source = .ok (leaf, out) ↔
            ∃ located, Splices (fun _ => Location.path leaf.directory) parts located out) ∧
          (∀ located out, Splices (fun _ => Location.path leaf.directory) parts located out →
            (Splices (Layout.ownDirectory leaf) parts located out ↔
              Include.NamesAlike files root leaf parts)) ∧
          (Include.NamesAlike files root leaf parts → ∀ out, source = .ok (leaf, out) ↔
            ∃ located, Splices (Layout.ownDirectory leaf) parts located out)) := by
  intro source parts
  have hjoined : Layout.resolveTemplate files compiler.config leaf = .ok marked.plain := by
    rw [← Layout.map_plain_resolveMarked, hmarked]
    rfl
  refine ⟨fun nonce write compiled h => ?_, Layout.climbs_of_resolveMarked hload hmarked,
    source_of_not_inlineIncludes hload hjoined, fun hi => ?_⟩
  · obtain ⟨template, out, hsource, hcompiled⟩ := compile_eq_ok h
    obtain ⟨-, htemplate, -⟩ := source_eq_ok hsource
    rw [hload] at htemplate
    obtain rfl := Except.ok.inj htemplate
    exact ⟨out, hsource, hcompiled⟩
  · obtain ⟨-, root, hroot, -⟩ := Source.load_eq_ok hload
    have hspliced : ∀ out, source = .ok (leaf, out) ↔
        ∃ located, Include.Splices files root compiler.config.maxDepth
          (fun _ => Location.path leaf.directory) parts located out := fun out =>
      (source_eq_ok_iff_splice hload hjoined hi hroot).trans
        (Include.splice_eq_ok_iff_splices marked)
    exact ⟨root, hroot, hspliced, fun located out => Include.splices_own_iff,
      fun halike out => (hspliced out).trans (Include.exists_splices_own_iff halike).symm⟩

def shelfLeaf : Template := ⟨['a'], [['s'], ['a'] ++ extension], "\x7b% extends 'b/c' %\x7d".toList⟩

/-- A layout in a directory below the source root, with a file to splice in. -/
def shelfLayout : Template :=
  ⟨['b', '/', 'c'], [['s'], ['b'], ['c'] ++ extension], (Include.letterTag 'd').text⟩

def shelf (given : List (Location × Entry)) : FileSystem where
  entries := [([['s']], .directory), (shelfLeaf.location, .file (.text shelfLeaf.text)),
    ([['s'], ['b']], .directory), (shelfLayout.location, .file (.text shelfLayout.text))] ++ given
  current := []

def shelfText : Marked Template := .ofText shelfLayout shelfLayout.text

theorem markedPieces_shelfText : Layout.includeTag.markedPieces shelfText =
    [(.item (Include.letterTag 'd'), shelfText)] := by decide +kernel

section
variable (given : List (Location × Entry))

theorem load_shelfLeaf :
    Source.load (shelf given) (.ofRoots ['s'] ['d']) ['a'] = .ok shelfLeaf := by cbv

theorem load_shelfLayout :
    Source.load (shelf given) (.ofRoots ['s'] ['d']) ['b', '/', 'c'] = .ok shelfLayout := by cbv

theorem place_shelf : Source.place (shelf given) ['s'] = .ok [['s']] := by cbv

theorem resolveMarked_shelf :
    Layout.resolveMarked (shelf given) (.ofRoots ['s'] ['d']) shelfLeaf = .ok shelfText := by
  rw [Layout.resolveMarked_of_parent (by decide +kernel) (by decide) (by decide)
    (load_shelfLayout given) (by decide +kernel)]
  exact congrArg Except.ok (by decide +kernel)

end

theorem origin?_shelfText : shelfText.origin? = some shelfLayout := by decide +kernel

theorem ownDirectory_shelfText :
    Layout.ownDirectory shelfLeaf shelfText = Location.path shelfLayout.directory := by
  rw [Layout.ownDirectory, origin?_shelfText]
  rfl

theorem exists_splices_shelfText_iff {files : FileSystem} {directory : Marked Template → Text}
    {out : Text} : (∃ located, Include.Splices files [['s']] 32 directory
      (Layout.includeTag.markedPieces shelfText) located out) ↔
        ∃ location, Include.Gives files [['s']] 32 (directory shelfText) (Include.letterTag 'd')
          location out := by
  rw [markedPieces_shelfText]
  constructor
  · rintro ⟨located, hspliced⟩
    cases hspliced with
    | item hgives hrest =>
      cases hrest
      rw [List.append_nil]
      exact ⟨_, hgives⟩
  · rintro ⟨location, hgives⟩
    have hspliced : Include.Splices files [['s']] 32 directory
        [(.item (Include.letterTag 'd'), shelfText)] [location] (out ++ []) := .item hgives .nil
    rw [List.append_nil] at hspliced
    exact ⟨_, hspliced⟩

/-- The file is in the source root alone, so the leaf and the layout name the same one. -/
theorem source_own_iff_shelf :
    let compiler := ofConfig (.ofRoots ['s'] ['d'])
    let files := shelf [([['s'], ['d']], .file (.text ['y']))]
    Source.load files compiler.config ['a'] = .ok shelfLeaf ∧
      Layout.resolveMarked files compiler.config shelfLeaf = .ok shelfText ∧
      Include.NamesAlike files [['s']] shelfLeaf (Layout.includeTag.markedPieces shelfText) ∧
      source compiler.config files ['a'] = .ok (shelfLeaf, ['y']) ∧
      ∃ located, Include.Splices files [['s']] 32 (Layout.ownDirectory shelfLeaf)
        (Layout.includeTag.markedPieces shelfText) located ['y'] := by
  intro compiler files
  have hload := load_shelfLeaf [([['s'], ['d']], .file (.text ['y']))]
  have hmarked := resolveMarked_shelf [([['s'], ['d']], .file (.text ['y']))]
  have hleaf : Include.Names files [['s']] (Location.path shelfLeaf.directory)
      (Include.letterTag 'd').reference [['s'], ['d']] ['y'] := Include.names_iff.2 ⟨by cbv, rfl⟩
  have hlayout : Include.Names files [['s']] (Location.path shelfLayout.directory)
      (Include.letterTag 'd').reference [['s'], ['d']] ['y'] := Include.names_iff.2 ⟨by cbv, rfl⟩
  have halike : Include.NamesAlike files [['s']] shelfLeaf
      (Layout.includeTag.markedPieces shelfText) := by
    intro tag part layout hm hne hmarks
    rw [markedPieces_shelfText] at hm
    obtain ⟨htag, rfl⟩ := Prod.mk.inj (List.mem_singleton.1 hm)
    obtain rfl := Piece.item.inj htag
    have horigin := Marked.origin?_eq_some_iff.2 ⟨hne, hmarks⟩
    rw [origin?_shelfText] at horigin
    obtain rfl := Option.some.inj horigin
    exact hlayout.iff_of_location hleaf
  have hspliced : ∃ located, Include.Splices files [['s']] 32 (Layout.ownDirectory shelfLeaf)
      (Layout.includeTag.markedPieces shelfText) located ['y'] := by
    rw [exists_splices_shelfText_iff, ownDirectory_shelfText]
    exact ⟨_, Include.gives_of_pieces hlayout (Nat.zero_lt_succ 31) (by decide +kernel)⟩
  obtain ⟨-, -, -, hon⟩ := source_own_iff compiler files ['a'] hload hmarked
  obtain ⟨root, hroot, -, -, hown⟩ := hon rfl
  obtain rfl : [['s']] = root := Except.ok.inj ((place_shelf _).symm.trans hroot)
  exact ⟨hload, hmarked, halike, (hown halike ['y']).2 hspliced, hspliced⟩

/-- The file is in both directories: the tag of the layout gives way to the one beside the leaf. -/
theorem not_own_shelf :
    let config := Config.ofRoots ['s'] ['d']
    let files := shelf [([['s'], ['b'], ['d']], .file (.text ['x'])),
      ([['s'], ['d']], .file (.text ['y']))]
    Source.load files config ['a'] = .ok shelfLeaf ∧
      Layout.resolveMarked files config shelfLeaf = .ok shelfText ∧
      Include.Names files [['s']] (Layout.ownDirectory shelfLeaf shelfText)
        (Include.letterTag 'd').reference [['s'], ['b'], ['d']] ['x'] ∧
      source config files ['a'] = .ok (shelfLeaf, ['y']) ∧
      ¬ ∃ located, Include.Splices files [['s']] 32 (Layout.ownDirectory shelfLeaf)
        (Layout.includeTag.markedPieces shelfText) located ['y'] := by
  intro config files
  have hload := load_shelfLeaf [([['s'], ['b'], ['d']], .file (.text ['x'])),
    ([['s'], ['d']], .file (.text ['y']))]
  have hmarked := resolveMarked_shelf [([['s'], ['b'], ['d']], .file (.text ['x'])),
    ([['s'], ['d']], .file (.text ['y']))]
  have hjoined : Layout.resolveTemplate files config shelfLeaf = .ok shelfText.plain := by
    rw [← Layout.map_plain_resolveMarked, hmarked]
    rfl
  have hleaf : Include.Names files [['s']] (Location.path shelfLeaf.directory)
      (Include.letterTag 'd').reference [['s'], ['d']] ['y'] := Include.names_iff.2 ⟨by cbv, rfl⟩
  have hlayout : Include.Names files [['s']] (Location.path shelfLayout.directory)
      (Include.letterTag 'd').reference [['s'], ['b'], ['d']] ['x'] :=
    Include.names_iff.2 ⟨by cbv, rfl⟩
  rw [exists_splices_shelfText_iff, ownDirectory_shelfText]
  refine ⟨hload, hmarked, hlayout, ?_, ?_⟩
  · refine (source_eq_ok_iff_splice hload hjoined rfl (place_shelf _)).2
      ((Include.splice_eq_ok_iff_splices shelfText).2 (exists_splices_shelfText_iff.2 ?_))
    exact ⟨_, Include.gives_of_pieces hleaf (Nat.zero_lt_succ 31) (by decide +kernel)⟩
  · rintro ⟨location, hgives⟩
    have hother := Include.gives_of_pieces hlayout (Nat.zero_lt_succ 31)
      (show Layout.includeTag.pieces ['x'] = ['x'].map .char by decide +kernel)
    obtain ⟨-, hresult⟩ := hgives.unique hother
    cases hresult

end Compiler
end MailTemplate
