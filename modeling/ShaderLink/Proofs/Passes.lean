import ShaderLink.Outline
import ShaderLink.Proofs.Contracts

/-!
# The passes over a module

A module is read in passes over its code: imports and exports first, then the declarations of one
kind after the other (`Kind.inTurn`).  What is left of the code when it is the turn of a kind is
`codeFor`.  Reading an outline fails where a pass fails and leaves the code that the passes leave
(`follows_everything`), and its declarations are those that the passes find in the code left for
them (`exists_codeFor_of_ofCode`).
-/

namespace ShaderLink

/-- The kinds in the order in which they are read. -/
def Kind.inTurn : List Kind := [.function, .uniform, .global, .struct, .define]

/-- The kinds that are read before. -/
def Kind.earlier (kind : Kind) : List Kind := inTurn.takeWhile (· != kind)

namespace Pass

/-- Takes out the declarations of a kind. -/
def ofKind : Kind → Text → Pass (List Declaration)
  | .function => functions
  | .uniform => uniforms
  | .global => globals
  | .struct => structs
  | .define => defines

/-- Takes out imports and exports. -/
def statements (path : Text) : Pass Unit := do
  let _ ← imports path
  let _ ← exports path

/-- Takes out the declarations of some kinds. -/
def kinds (path : Text) (ks : List Kind) : Pass Unit :=
  ks.forM fun kind => do
    let _ ← ofKind kind path

/-- Takes out all that is read before the declarations of a kind. -/
def upTo (path : Text) (kind : Kind) : Pass Unit := do
  statements path
  kinds path kind.earlier

/-- Takes out everything. -/
def everything (path : Text) : Pass Unit := do
  statements path
  kinds path Kind.inTurn

theorem everything_eq (path : Text) : everything path =
    upTo path .struct >>= fun _ => structs path >>= fun _ => defines path >>= fun _ => pure () := by
  show (statements path >>= fun _ => kinds path [.function, .uniform, .global, .struct, .define]) =
    (statements path >>= fun _ => kinds path [.function, .uniform, .global]) >>= _
  simp only [kinds, List.forM, bind_assoc, pure_bind]
  rfl

end Pass

/-- The code in which the declarations of a kind are looked for. -/
def codeFor (path code : Text) (kind : Kind) : Except Fault Text :=
  match Pass.upTo path kind code with
  | (.ok _, left) => .ok left
  | (.error fault, _) => .error fault

theorem codeFor_eq_ok_iff {path code left : Text} {kind : Kind} :
    codeFor path code kind = .ok left ↔ Pass.upTo path kind code = (.ok (), left) := by
  unfold codeFor
  rcases Pass.upTo path kind code with ⟨_ | ⟨⟩, left'⟩
  · exact ⟨nofun, nofun⟩
  · exact ⟨fun h => Except.ok.inj h ▸ rfl, fun h => (Prod.mk.inj h).2 ▸ rfl⟩

/-! ## Reading and passes -/

namespace Reader

variable {α β : Type}

/-- The step ends as the pass does, and does the same to the code. -/
def Follows (r : Reader α) (pass : Text → Pass α) : Prop :=
  ∀ s : Reading, pass s.path s.code = ((r s).1, (r s).2.code) ∧ (r s).2.path = s.path

theorem Follows.bind {r : Reader α} {pass : Text → Pass α} {f : α → Reader β}
    {g : α → Text → Pass β} (h : Follows r pass) (hf : ∀ a, Follows (f a) (g a)) :
    Follows (r >>= f) fun path => pass path >>= fun a => g a path := by
  intro s
  obtain ⟨hpass, hpath⟩ := h s
  show (pass s.path >>= fun a => g a s.path) s.code = _ ∧ _
  rw [bind_apply, bind_apply, hpass]
  revert hpath
  rcases r s with ⟨e | a, s'⟩
  · exact fun hpath => ⟨rfl, hpath⟩
  · intro hpath
    have ha := hf a s'
    rwa [hpath] at ha

theorem follows_forM {ι : Type} {r : ι → Reader PUnit} {pass : ι → Text → Pass PUnit}
    (h : ∀ i, Follows (r i) (pass i)) (l : List ι) :
    Follows (l.forM r) fun path => l.forM fun i => pass i path := by
  induction l with
  | nil => exact fun s => ⟨rfl, rfl⟩
  | cons i l ih => exact (h i).bind fun _ => ih

/-- What is found is kept, which changes nothing else. -/
theorem follows_keeping (pass : Text → Pass α) {keep : α → Reading → Reading}
    (hcode : ∀ a s, (keep a s).code = s.code) (hpath : ∀ a s, (keep a s).path = s.path) :
    Follows (do let found ← onCode pass; modify (keep found); return found) pass := by
  intro s
  rw [bind_apply]
  show pass s.path s.code = _ ∧ _
  unfold onCode
  rcases pass s.path s.code with ⟨e | a, left⟩
  · exact ⟨rfl, rfl⟩
  · exact ⟨congrArg (Prod.mk (Except.ok a)) (hcode a { s with code := left }).symm,
      hpath a { s with code := left }⟩

/-- Where nothing else is kept, the declarations stay as they are. -/
theorem ends_keeping (pass : Text → Pass α) {f : α → Reading → Reading}
    (hkeep : ∀ a s, (f a s).declarations = s.declarations) (s : Reading) :
    Ends (fun _ s' => s'.declarations = s.declarations) (fun _ => True)
      ((do let found ← onCode pass; modify (f found); return found : Reader α) s) := by
  apply ends_bind.2
  unfold onCode
  rcases pass s.path s.code with ⟨e | a, left⟩
  · trivial
  · exact hkeep a { s with code := left }

theorem Follows.ends {r : Reader α} {pass : Text → Pass α} (h : Follows r pass) (s : Reading) :
    Ends (fun a s' => pass s.path s.code = (.ok a, s'.code) ∧ s'.path = s.path) (fun _ => True)
      (r s) := by
  have hs := h s
  revert hs
  rcases r s with ⟨e | a, s'⟩
  · exact fun _ => trivial
  · exact id

theorem follows_imports : Follows imports Pass.imports :=
  follows_keeping Pass.imports (fun _ _ => rfl) fun _ _ => rfl

theorem follows_exports : Follows exports Pass.exports :=
  follows_keeping Pass.exports (fun _ _ => rfl) fun _ _ => rfl

theorem follows_declarations (pass : Text → Pass (List Declaration)) :
    Follows (declarations pass) pass :=
  follows_keeping pass (fun _ _ => rfl) fun _ _ => rfl

theorem everything_eq : everything =
    imports >>= fun _ => exports >>= fun _ =>
      Kind.inTurn.forM (fun kind => declarations (Pass.ofKind kind) >>= fun _ => pure ()) >>=
        fun _ => get >>= fun s =>
          note (.parsedModule s.path s.imports.length s.exports.length s.declarations.length) := by
  unfold everything
  simp only [Kind.inTurn, List.forM, bind_assoc, pure_bind]
  rfl

/-- Reading fails where the passes fail, and leaves the code that they leave. -/
theorem follows_everything : Follows everything Pass.everything := by
  have hkind : ∀ kind, Follows (declarations (Pass.ofKind kind) >>= fun _ => pure ())
      fun path => Pass.ofKind kind path >>= fun _ => pure () :=
    fun kind => (follows_declarations _).bind fun _ _ => ⟨rfl, rfl⟩
  have hnote : Follows (get >>= fun s => note (.parsedModule s.path s.imports.length
      s.exports.length s.declarations.length)) fun _ => pure () := fun _ => ⟨rfl, rfl⟩
  have hpasses := follows_imports.bind fun _ => follows_exports.bind fun _ =>
    (follows_forM hkind Kind.inTurn).bind fun _ => hnote
  rw [everything_eq]
  intro s
  have hs := hpasses s
  simpa only [Pass.everything, Pass.statements, Pass.kinds, bind_assoc, pure_bind,
    bind_pure_unit] using hs

end Reader

/-! ## Where declarations are found -/

theorem Kind.earlier_eq {kind : Kind} {ks ls : List Kind} (h : inTurn = ks ++ kind :: ls) :
    kind.earlier = ks := by
  have hnodup : inTurn.Nodup := by decide
  rw [h, List.nodup_append] at hnodup
  have hks : ∀ k ∈ ks, (k != kind) = true := fun k hk =>
    bne_iff_ne.2 (hnodup.2.2 k hk kind List.mem_cons_self)
  unfold earlier
  rw [h, List.takeWhile_append_of_pos hks, List.takeWhile_cons_of_neg (by simp), List.append_nil]

theorem Pass.kinds_concat (path : Text) (ks : List Kind) (kind : Kind) :
    kinds path (ks ++ [kind]) =
      kinds path ks >>= fun _ => ofKind kind path >>= fun _ => pure () := by
  unfold kinds
  induction ks with
  | nil => simp only [List.nil_append, List.forM, bind_assoc, pure_bind]
  | cons k ks ih =>
    simp only [List.cons_append, List.forM, bind_assoc, ih, pure_bind]

/-- The pass for the kind finds the declaration in the code that is left for it. -/
def Declaration.IsFoundIn (path code : Text) (kind : Kind) (d : Declaration) : Prop :=
  ∃ seen found left, codeFor path code kind = .ok seen ∧
    Pass.ofKind kind path seen = (.ok found, left) ∧ d ∈ found

/-- The passes for some kinds are over. -/
structure Reading.Passed (path code : Text) (ks : List Kind) (s : Reading) : Prop where
  path_eq : s.path = path
  passes : (Pass.statements path >>= fun _ => Pass.kinds path ks) code = (.ok (), s.code)
  declarations : ∀ d ∈ s.declarations, ∃ kind, d.IsFoundIn path code kind

namespace Reading.Passed

variable {path code : Text} {ks ls : List Kind} {kind : Kind} {s : Reading}

theorem ends_declarations (h : s.Passed path code ks) (hkind : kind.earlier = ks) :
    Ends (fun _ s' => s'.Passed path code (ks ++ [kind])) (fun _ => True)
      (Reader.declarations (Pass.ofKind kind) s) := by
  obtain ⟨rfl, hpasses, hdeclarations⟩ := h
  have hseen : codeFor s.path code kind = .ok s.code :=
    codeFor_eq_ok_iff.2 (by unfold Pass.upTo; rw [hkind]; exact hpasses)
  have hnext : (Pass.statements s.path >>= fun _ => Pass.kinds s.path (ks ++ [kind])) code =
      (Pass.ofKind kind s.path >>= fun _ => pure ()) s.code := by
    rw [Pass.kinds_concat, ← bind_assoc, bind_apply, hpasses]
  unfold Reader.declarations
  apply ends_bind.2
  unfold Reader.onCode
  cases hfound : Pass.ofKind kind s.path s.code with
  | mk result left =>
    cases result with
    | error e => trivial
    | ok found =>
      refine ⟨rfl, ?_, fun d hd => ?_⟩
      · rw [hnext, bind_apply, hfound]
        rfl
      · rcases List.mem_append.1 hd with hd | hd
        · exact hdeclarations d hd
        · exact ⟨kind, s.code, found, left, hseen, hfound, hd⟩

theorem ends_inTurn (h : s.Passed path code []) :
    Ends (fun _ s' => s'.Passed path code Kind.inTurn) (fun _ => True)
      (Kind.inTurn.forM (fun kind => Reader.declarations (Pass.ofKind kind) >>= fun _ => pure ())
        s) := by
  refine (ends_forM_rest (I := fun ls s' => ∃ ks, Kind.inTurn = ks ++ ls ∧ s'.Passed path code ks)
    (fun kind ls s' hs' => ?_) ⟨[], rfl, h⟩).imp fun _ s' ⟨ks, hks, hs'⟩ => ?_
  · obtain ⟨ks, hks, hs'⟩ := hs'
    refine (hs'.ends_declarations (Kind.earlier_eq hks)).bind fun _ s'' hs'' => ?_
    exact ⟨ks ++ [kind], by simp [hks], hs''⟩
  · rw [List.append_nil] at hks
    exact hks ▸ hs'

end Reading.Passed

/-- Imports and exports come first. -/
theorem Reader.ends_statements {s : Reading} (h : s.declarations = []) :
    Ends (fun _ s' => s'.Passed s.path s.code []) (fun _ => True)
      ((imports >>= fun _ => exports) s) := by
  have himports := (follows_imports.ends s).and
    (ends_keeping Pass.imports (f := fun found s => { s with imports := found })
      (fun _ _ => rfl) s)
  refine Ends.bind (himports.mono (fun _ _ => id) fun _ _ => trivial) fun _ s' hs' => ?_
  obtain ⟨⟨himports, hpath⟩, hnone⟩ := hs'
  have hexports := (follows_exports.ends s').and
    (ends_keeping Pass.exports (f := fun found s => { s with exports := s.exports ++ found })
      (fun _ _ => rfl) s')
  refine hexports.mono (fun _ s'' hs'' => ?_) fun _ _ => trivial
  obtain ⟨⟨hexports, hpath'⟩, hnone'⟩ := hs''
  refine ⟨hpath'.trans hpath, ?_, ?_⟩
  · rw [hpath] at hexports
    show (Pass.statements s.path >>= fun _ => pure ()) s.code = _
    simp only [Pass.statements, bind_assoc, pure_bind]
    rw [bind_apply, himports]
    show (Pass.exports s.path >>= fun _ => pure ()) s'.code = _
    rw [bind_apply, hexports]
    rfl
  · rw [hnone', hnone, h]
    exact nofun

theorem Reader.ends_everything {s : Reading} (h : s.declarations = []) :
    Ends (fun _ s' => s'.Passed s.path s.code Kind.inTurn) (fun _ => True) (everything s) := by
  rw [everything_eq, ← bind_assoc]
  refine (ends_statements h).bind fun _ s' hs' => ?_
  refine hs'.ends_inTurn.bind fun _ s'' hs'' => ?_
  exact ⟨hs''.path_eq, hs''.passes, hs''.declarations⟩

/-- Each declaration of a module is found by a pass in the code that is left for it. -/
theorem exists_isFoundIn_of_ofCode {path code : Text} {o : Outline}
    (h : Outline.ofCode path code = .ok o) :
    ∀ d ∈ o.declarations, ∃ kind, d.IsFoundIn path code kind := by
  have hends := Reader.ends_everything (s := { toOutline := Outline.unread path code }) rfl
  unfold Outline.ofCode Outline.step at h
  revert hends h
  rcases Reader.everything { toOutline := Outline.unread path code } with ⟨e | a, s⟩
  · exact fun h => nomatch h
  · intro h hs
    cases h
    exact hs.declarations

end ShaderLink
