import Mathlib.Data.List.Forall2
import ShaderLink.Proofs.Keeping

/-!
# What plugins do to a module

The plugins of a scope change the text of a module one after the other before it is read
(`Plugin.Preprocess`), then its declarations (`Plugin.Transform`), and at last the definition of
each of them (`Plugin.Postprocess`); what is read and what they make of it gets numbers (`Numbers`).
Each relation says which calls are made: every plugin is called once for the text, once for the
declarations and once for each definition.  A module is `ReadWith` plugins, and they are `AppliedTo`
it; `ends_readSource_calls`, `ends_makeModule_calls`, `ends_bindModule_calls` and `ends_applyTo` say
that this is what happens, and that nothing else does.  Where it ends early, no plugin was called
twice for the text or for the declarations (`Calls.Reads`, `Calls.Applies`).
-/

namespace ShaderLink

open Store LinkM

/-- Calls of plugins, each with the serial number of the plugin. -/
abbrev Calls := List (Nat × Call)

namespace Calls

/-- The plugins that were called for texts, in order. -/
def preprocessed (calls : Calls) : List Nat :=
  calls.filterMap fun c => match c.2 with
    | .preprocess .. => some c.1
    | .transform .. | .postprocess .. => none

/-- The plugins that were called for declarations, in order, each with the path of the module. -/
def transformed (calls : Calls) : List (Nat × Text) :=
  calls.filterMap fun c => match c.2 with
    | .transform _ _ seen => some (c.1, seen.path)
    | .preprocess .. | .postprocess .. => none

/-- The calls for the text of a module, as far as they were made: those of the first plugins. -/
structure Reads (plugins : List Plugin) (calls : Calls) : Prop where
  preprocessed : preprocessed calls <+: plugins.map (·.serial)
  transformed : transformed calls = []

/-- The calls for the declarations of a module and their definitions, as far as they were made: those
of the first plugins. -/
structure Applies (plugins : List Plugin) (path : Text) (calls : Calls) : Prop where
  preprocessed : preprocessed calls = []
  transformed : transformed calls <+: plugins.map fun p => (p.serial, path)

/-- All calls for a module, as far as they were made: no plugin is called twice for the text or for
the declarations. -/
structure Partly (plugins : List Plugin) (path : Text) (calls : Calls) : Prop where
  preprocessed : preprocessed calls <+: plugins.map (·.serial)
  transformed : transformed calls <+: plugins.map fun p => (p.serial, path)

/-- Calls for the definitions of declarations. -/
structure ForDefinitions (calls : Calls) : Prop where
  preprocessed : preprocessed calls = []
  transformed : transformed calls = []

@[simp] theorem preprocessed_append (calls calls' : Calls) :
    preprocessed (calls ++ calls') = preprocessed calls ++ preprocessed calls' :=
  List.filterMap_append

@[simp] theorem transformed_append (calls calls' : Calls) :
    transformed (calls ++ calls') = transformed calls ++ transformed calls' :=
  List.filterMap_append

section Parts

variable {p : Plugin} {plugins : List Plugin} {isShader : Bool} {code path : Text}
  {calls calls' : Calls}

theorem Reads.nil : Reads plugins [] := ⟨List.nil_prefix, rfl⟩

theorem Reads.cons (h : Reads plugins calls) :
    Reads (p :: plugins) ((p.serial, .preprocess isShader code) :: calls) :=
  ⟨(List.prefix_cons_inj _).2 h.preprocessed, h.transformed⟩

theorem Applies.nil : Applies plugins path [] := ⟨rfl, List.nil_prefix⟩

theorem Applies.cons {keys : List Text} {seen : Surroundings} (h : Applies plugins seen.path calls) :
    Applies (p :: plugins) seen.path ((p.serial, .transform isShader keys seen) :: calls) :=
  ⟨h.preprocessed, (List.prefix_cons_inj _).2 h.transformed⟩

theorem Applies.append (h : Applies plugins path calls) (h' : ForDefinitions calls') :
    Applies plugins path (calls ++ calls') := by
  refine ⟨?_, ?_⟩
  · rw [preprocessed_append, h.preprocessed, h'.preprocessed, List.append_nil]
  · rw [transformed_append, h'.transformed, List.append_nil]
    exact h.transformed

theorem Reads.partly (h : Reads plugins calls) (path : Text) : Partly plugins path calls :=
  ⟨h.preprocessed, h.transformed ▸ List.nil_prefix⟩

theorem Partly.append (h : Reads plugins calls) (h' : Applies plugins path calls') :
    Partly plugins path (calls ++ calls') := by
  refine ⟨?_, ?_⟩
  · rw [preprocessed_append, h'.preprocessed, List.append_nil]
    exact h.preprocessed
  · rw [transformed_append, h.transformed]
    exact h'.transformed

theorem ForDefinitions.append (h : ForDefinitions calls) (h' : ForDefinitions calls') :
    ForDefinitions (calls ++ calls') := by
  refine ⟨?_, ?_⟩
  · rw [preprocessed_append, h.preprocessed, h'.preprocessed, List.append_nil]
  · rw [transformed_append, h.transformed, h'.transformed, List.append_nil]

end Parts

end Calls

theorem exists_of_forall₂_left {α β : Type} {R : α → β → Prop} {as : List α} {bs : List β}
    (h : List.Forall₂ R as bs) {a : α} (ha : a ∈ as) : ∃ b ∈ bs, R a b := by
  obtain ⟨n, hn, rfl⟩ := List.mem_iff_getElem.1 ha
  obtain ⟨hlength, hall⟩ := List.forall₂_iff_get.1 h
  exact ⟨_, List.get_mem _ _, hall n hn (hlength ▸ hn)⟩

theorem exists_of_forall₂_right {α β : Type} {R : α → β → Prop} {as : List α} {bs : List β}
    (h : List.Forall₂ R as bs) {b : β} (hb : b ∈ bs) : ∃ a ∈ as, R a b :=
  exists_of_forall₂_left h.flip hb

/-! ## The phases -/

namespace Plugin

/-- What plugins make of a text, one after the other, and their calls. -/
inductive Preprocess (isShader : Bool) : List Plugin → Text → Calls → Text → Prop where
  | nil (code : Text) : Preprocess isShader [] code [] code
  | cons {p : Plugin} {ps : List Plugin} {code code' result : Text} {calls : Calls}
      (h : (p.preprocess isShader code).1 = .ok code')
      (hps : Preprocess isShader ps code' calls result) :
      Preprocess isShader (p :: ps) code ((p.serial, .preprocess isShader code) :: calls) result

end Plugin

/-- The same declaration with a number: its own, if it has one. -/
def Numbers (d d' : Declaration) : Prop :=
  d' = { d with serial := d'.serial } ∧ (d.serial ≠ 0 → d'.serial = d.serial)

theorem Declaration.latest_singleton (d e : Declaration) : d.latest [e] = d ∨ d.latest [e] = e := by
  rw [latest, List.find?_singleton]
  split
  · exact Or.inr rfl
  · exact Or.inl rfl

namespace Plugin

/-- What plugins make of declarations, one after the other, and their calls; each of them sees the
surroundings that the one before it has left. -/
inductive Transform (isShader : Bool) : List Plugin → Surroundings → List Declaration → Calls →
    Surroundings → List Declaration → Prop where
  | nil (seen : Surroundings) (ds : List Declaration) : Transform isShader [] seen ds [] seen ds
  | kept {p : Plugin} {ps : List Plugin} {seen seen' : Surroundings}
      {ds edited ds' : List Declaration} {calls : Calls}
      (h : p.transform isShader seen ds = ⟨edited, .ok none⟩)
      (hps : Transform isShader ps (seen.refresh edited) edited calls seen' ds') :
      Transform isShader (p :: ps) seen ds
        ((p.serial, .transform isShader (ds.map (·.key)) seen) :: calls) seen' ds'
  | replaced {p : Plugin} {ps : List Plugin} {seen seen' : Surroundings}
      {ds edited new numbered ds' : List Declaration} {calls : Calls}
      (h : p.transform isShader seen ds = ⟨edited, .ok (some new)⟩)
      (hnew : List.Forall₂ Numbers new numbered)
      (hps : Transform isShader ps ((seen.refresh edited).replace numbered) numbered calls seen'
        ds') :
      Transform isShader (p :: ps) seen ds
        ((p.serial, .transform isShader (ds.map (·.key)) seen) :: calls) seen' ds'

/-- What a plugin makes of the definitions of declarations from a place on, and its calls.  In each
of them it sees what those before it have left. -/
inductive Rewrites (p : Plugin) (isShader : Bool) : Nat → Surroundings → List Declaration → Calls →
    Surroundings → List Declaration → Prop where
  | done {n : Nat} {seen : Surroundings} {ds : List Declaration} (h : n = ds.length) :
      Rewrites p isShader n seen ds [] seen ds
  | step {n : Nat} {seen seen' : Surroundings} {ds ds' : List Declaration} {d : Declaration}
      {definition : Text} {calls : Calls} (hd : ds[n]? = some d)
      (h : p.postprocess isShader seen d d.definition = .ok definition)
      (hrest : Rewrites p isShader (n + 1) (seen.refresh [{ d with definition }])
        (ds.map (·.latest [{ d with definition }])) calls seen' ds') :
      Rewrites p isShader n seen ds
        ((p.serial, .postprocess isShader d.key d.definition) :: calls) seen' ds'

/-- What plugins make of the definitions of declarations, one after the other, and their calls. -/
inductive Postprocess (isShader : Bool) : List Plugin → Surroundings → List Declaration → Calls →
    Surroundings → List Declaration → Prop where
  | nil (seen : Surroundings) (ds : List Declaration) : Postprocess isShader [] seen ds [] seen ds
  | cons {p : Plugin} {ps : List Plugin} {seen seen₁ seen' : Surroundings}
      {ds ds₁ ds' : List Declaration} {calls calls' : Calls}
      (h : p.Rewrites isShader 0 seen ds calls seen₁ ds₁)
      (hps : Postprocess isShader ps seen₁ ds₁ calls' seen' ds') :
      Postprocess isShader (p :: ps) seen ds (calls ++ calls') seen' ds'

end Plugin

/-! ## Modules -/

/-- A text can be read at a path, if no plugin changes it. -/
def CanRead (path source : Text) : Prop :=
  ∃ o, (Outline.read path (Comment.strip source)).1 = .ok o

namespace Module

/-- The module has what is read in its source once the plugins have changed it, with these calls. -/
def ReadWith (plugins : List Plugin) (m : Module) (calls : Calls) : Prop :=
  ∃ code o, Plugin.Preprocess m.isShader plugins (Comment.strip m.source) calls code ∧
    (Outline.read m.path code).1 = .ok o ∧ List.Forall₂ Numbers o.declarations m.declarations ∧
      m.imports = o.imports ∧ m.exports = o.exports ∧ m.remainder = o.code

/-- The module has what is read in its source if no plugin changes that, and its declarations got
numbers. -/
structure ReadAs (m : Module) (o : Outline) : Prop where
  read : (Outline.read m.path (Comment.strip m.source)).1 = .ok o
  declarations : List.Forall₂ Numbers o.declarations m.declarations
  imports : m.imports = o.imports
  exports : m.exports = o.exports
  remainder : m.remainder = o.code

/-- The second module is what plugins make of the first one, with these calls, if `found` was found
for it in libraries. -/
def AppliedTo (plugins : List Plugin) (found : List Declaration) (m : Module) (calls : Calls)
    (m' : Module) : Prop :=
  ∃ seen ds seen' ds' transforms postprocesses,
    Plugin.Transform m.isShader plugins (.of m.path m.declarations m.imports found) m.declarations
      transforms seen ds ∧
    Plugin.Postprocess m.isShader plugins seen ds postprocesses seen' ds' ∧
    calls = transforms ++ postprocesses ∧ m' = m.showing seen' ds'

/-- The plugins have worked on the module, with these calls: each of them once on the text, once on
the declarations, and once on each definition. -/
def WorkedOn (plugins : List Plugin) (m : Module) (calls : Calls) : Prop :=
  ∃ m₀ found read applied, ReadWith plugins m₀ read ∧ AppliedTo plugins found m₀ applied m ∧
    calls = read ++ applied

end Module

/-! ## Which plugins are called -/

namespace Plugin

variable {isShader : Bool} {p : Plugin} {ps : List Plugin} {seen seen' : Surroundings}
  {ds ds' : List Declaration} {code result : Text} {calls : Calls} {n : Nat}

theorem Preprocess.calls_eq (h : Preprocess isShader ps code calls result) :
    calls.preprocessed = ps.map (·.serial) ∧ calls.transformed = [] := by
  induction h with
  | nil => exact ⟨rfl, rfl⟩
  | @cons p _ _ _ _ _ _ _ ih => exact ⟨congrArg (p.serial :: ·) ih.1, ih.2⟩

theorem Transform.calls_eq (h : Transform isShader ps seen ds calls seen' ds') :
    calls.preprocessed = [] ∧ calls.transformed = ps.map fun p => (p.serial, seen.path) := by
  induction h with
  | nil => exact ⟨rfl, rfl⟩
  | @kept p _ seen _ _ _ _ _ _ _ ih | @replaced p _ seen _ _ _ _ _ _ _ _ _ _ ih =>
    exact ⟨ih.1, congrArg ((p.serial, seen.path) :: ·) ih.2⟩

theorem Rewrites.forDefinitions (h : p.Rewrites isShader n seen ds calls seen' ds') :
    Calls.ForDefinitions calls := by
  induction h with
  | done => exact ⟨rfl, rfl⟩
  | step _ _ _ ih => exact ⟨ih.preprocessed, ih.transformed⟩

theorem Postprocess.forDefinitions (h : Postprocess isShader ps seen ds calls seen' ds') :
    Calls.ForDefinitions calls := by
  induction h with
  | nil => exact ⟨rfl, rfl⟩
  | cons h _ ih => exact h.forDefinitions.append ih

end Plugin

namespace Module

variable {plugins : List Plugin} {found : List Declaration} {m m' : Module} {calls : Calls}

theorem ReadWith.calls_eq (h : m.ReadWith plugins calls) :
    calls.preprocessed = plugins.map (·.serial) ∧ calls.transformed = [] := by
  obtain ⟨code, o, hcode, -⟩ := h
  exact hcode.calls_eq

/-- A module without plugins has what is read in its source. -/
theorem ReadWith.exists_readAs (h : m.ReadWith [] calls) : ∃ o, m.ReadAs o := by
  obtain ⟨code, o, hcode, ho, hds, himports, hexports, hremainder⟩ := h
  cases hcode
  exact ⟨o, ho, hds, himports, hexports, hremainder⟩

theorem ReadWith.reads (h : m.ReadWith plugins calls) : calls.Reads plugins :=
  ⟨h.calls_eq.1 ▸ List.prefix_rfl, h.calls_eq.2⟩

theorem AppliedTo.calls_eq (h : m.AppliedTo plugins found calls m') :
    calls.preprocessed = [] ∧ calls.transformed = plugins.map fun p => (p.serial, m.path) := by
  obtain ⟨seen, ds, seen', ds', transforms, postprocesses, ht, hp, rfl, -⟩ := h
  have hnone := hp.forDefinitions
  rw [Calls.preprocessed_append, Calls.transformed_append, hnone.preprocessed, hnone.transformed,
    List.append_nil, List.append_nil]
  exact ht.calls_eq

theorem AppliedTo.applies (h : m.AppliedTo plugins found calls m') : calls.Applies plugins m.path :=
  ⟨h.calls_eq.1, h.calls_eq.2 ▸ List.prefix_rfl⟩

/-- The plugins change nothing but the declarations of a module, and what they see of it. -/
theorem AppliedTo.kept (h : m.AppliedTo plugins found calls m') :
    m'.path = m.path ∧ m'.source = m.source ∧ m'.scope = m.scope := by
  obtain ⟨seen, ds, seen', ds', transforms, postprocesses, -, -, -, rfl⟩ := h
  exact ⟨rfl, rfl, rfl⟩

/-- Each plugin is called once for the text, and once for the declarations. -/
theorem WorkedOn.calls_eq (h : m.WorkedOn plugins calls) :
    calls.preprocessed = plugins.map (·.serial) ∧
      calls.transformed = plugins.map fun p => (p.serial, m.path) := by
  obtain ⟨m₀, found, read, applied, hread, happlied, rfl⟩ := h
  rw [Calls.preprocessed_append, Calls.transformed_append, hread.calls_eq.1, hread.calls_eq.2,
    happlied.calls_eq.1, happlied.calls_eq.2, List.append_nil, happlied.kept.1]
  exact ⟨rfl, rfl⟩

end Module

/-! ## What may change -/

namespace Store

/-- Nothing changed but the counter and the notices, and these calls were made. -/
structure Called (calls : Calls) (s s' : Store) : Prop extends Quiet s s' where
  calls_eq : s'.calls = s.calls ++ calls

/-- Nothing else changed but one module, which stays at its path with its source, and these calls
were made. -/
structure Alters (i : ModuleId) (calls : Calls) (s s' : Store) : Prop where
  libraries : s'.libraries = s.libraries
  registry : s'.registry = s.registry
  modules_size : s'.modules.size = s.modules.size
  nextSerial : s.nextSerial ≤ s'.nextSerial
  others : ∀ j, j ≠ i → s'.module j = s.module j
  path : (s'.module i).path = (s.module i).path
  source : (s'.module i).source = (s.module i).source
  isShader : (s'.module i).isShader = (s.module i).isShader
  calls_eq : s'.calls = s.calls ++ calls

variable {s s' s'' : Store} {i : ModuleId} {calls calls' : Calls}

theorem Called.refl (s : Store) : Called [] s s := ⟨.refl s, (List.append_nil _).symm⟩

theorem Called.trans (h : Called calls s s') (h' : Called calls' s' s'') :
    Called (calls ++ calls') s s'' :=
  ⟨h.toQuiet.trans h'.toQuiet, by rw [h'.calls_eq, h.calls_eq, List.append_assoc]⟩

theorem Called.alters (h : Called calls s s') (i : ModuleId) : Alters i calls s s' := by
  refine ⟨h.libraries, h.registry, by rw [h.modules], h.nextSerial, fun _ _ => ?_, ?_, ?_, ?_,
    h.calls_eq⟩
  all_goals rw [h.toQuiet.module]

namespace Alters

theorem refl (i : ModuleId) (s : Store) : Alters i [] s s := (Called.refl s).alters i

theorem trans (h : Alters i calls s s') (h' : Alters i calls' s' s'') :
    Alters i (calls ++ calls') s s'' where
  libraries := h'.libraries.trans h.libraries
  registry := h'.registry.trans h.registry
  modules_size := h'.modules_size.trans h.modules_size
  nextSerial := h.nextSerial.trans h'.nextSerial
  others j hj := (h'.others j hj).trans (h.others j hj)
  path := h'.path.trans h.path
  source := h'.source.trans h.source
  isShader := h'.isShader.trans h.isShader
  calls_eq := by rw [h'.calls_eq, h.calls_eq, List.append_assoc]

/-- A step that changes the module and makes no calls. -/
theorem change (h : Alters i calls s s') {f : Module → Module}
    (hpath : ∀ m, (f m).path = m.path) (hsource : ∀ m, (f m).source = m.source)
    (hshader : ∀ m, (f m).isShader = m.isShader) :
    Alters i calls s { s' with modules := s'.modules.modify i f } := by
  refine ⟨h.libraries, h.registry, ?_, h.nextSerial, fun j hj => ?_, ?_, ?_, ?_, h.calls_eq⟩
  · rw [Array.size_modify, h.modules_size]
  · rw [module_modify, if_neg fun hij => hj hij.1, h.others j hj]
  all_goals
    rw [module_modify]
    split
  · rw [hpath, h.path]
  · rw [h.path]
  · rw [hsource, h.source]
  · rw [h.source]
  · rw [hshader, h.isShader]
  · rw [h.isShader]

end Alters

theorem called_note (n : Notice) : Called [] s { s with notices := s.notices ++ [n] } :=
  ⟨quiet_note n, (List.append_nil _).symm⟩

theorem called_remember (p : Plugin) (c : Call) :
    Called [(p.serial, c)] s { s with calls := s.calls ++ [(p.serial, c)] } :=
  ⟨⟨rfl, rfl, rfl, le_rfl⟩, rfl⟩

end Store

/-! ## Reading -/

section Reading

variable {s : Store} {E : Store → Prop}

theorem ends_notes_calls (notices : List Notice) :
    Ends (fun _ => Called [] s) E (notices.forM note s) :=
  ends_forM (fun n _ _ h => h.trans (called_note n)) (.refl s)

theorem ends_preprocessAll (plugins : List Plugin) (isShader : Bool) (code : Text) :
    Ends (fun result s' => ∃ calls, Called calls s s' ∧
        Plugin.Preprocess isShader plugins code calls result)
      (fun s' => (∃ calls, Called calls s s' ∧ calls.Reads plugins) ∧ plugins ≠ [])
      (preprocessAll plugins isShader code s) := by
  unfold preprocessAll
  induction plugins generalizing code s with
  | nil => exact ⟨[], .refl s, .nil code⟩
  | cons p ps ih =>
    rw [List.foldlM_cons]
    apply ends_bind.2
    apply ends_bind.2
    apply ends_modify.2
    have h₁ := called_remember (s := s) p (.preprocess isShader code)
    refine (ends_notes_calls _).bind fun _ s₁ hnotes => ?_
    have hs₁ := h₁.trans hnotes
    apply ends_ofExcept.2
    refine ⟨fun code' hcode => ?_, fun _ _ => ⟨⟨_, hs₁, Calls.Reads.nil.cons⟩, List.cons_ne_nil p ps⟩⟩
    refine (ih code').mono (fun result s₂ => ?_) fun s₂ => ?_
    · rintro ⟨calls, hs₂, hps⟩
      exact ⟨_, hs₁.trans hs₂, .cons hcode hps⟩
    · rintro ⟨⟨calls, hs₂, hreads⟩, -⟩
      exact ⟨⟨_, hs₁.trans hs₂, hreads.cons⟩, List.cons_ne_nil p ps⟩

/-- Each declaration gets a number, if it has none, and nothing else changes. -/
theorem ends_stamp_numbers (ds : List Declaration) :
    Ends (fun ds' s' => Called [] s s' ∧ List.Forall₂ Numbers ds ds') E (stamp ds s) := by
  unfold stamp
  refine ends_mapM_rest (I := fun rest ds' s' => Called [] s s' ∧
    ∃ done, ds = done ++ rest ∧ List.Forall₂ Numbers done ds') ?_ ⟨.refl s, [], rfl, .nil⟩ |>.imp
      fun ds' s' => ?_
  · rintro d rest ds' s' ⟨hs', done, rfl, hdone⟩
    have hnext : ∀ d', Numbers d d' → ∃ done', done ++ d :: rest = done' ++ rest ∧
        List.Forall₂ Numbers done' (ds' ++ [d']) := by
      intro d' hd
      exact ⟨done ++ [d], by simp, List.rel_append hdone (.cons hd .nil)⟩
    by_cases hd : d.serial = 0
    · rw [if_pos hd]
      apply ends_bind.2
      apply ends_bind.2
      apply ends_get.2
      apply ends_bind.2
      apply ends_set.2
      apply ends_pure.2
      apply ends_pure.2
      exact ⟨hs'.trans ⟨quiet_fresh s', (List.append_nil _).symm⟩, hnext _ ⟨rfl, (absurd hd ·)⟩⟩
    · rw [if_neg hd]
      exact ⟨hs', hnext d ⟨rfl, fun _ => rfl⟩⟩
  · rintro ⟨hs', done, hdone, h⟩
    rw [List.append_nil] at hdone
    exact ⟨hs', hdone ▸ h⟩

theorem ends_readSource_calls (path source : Text) (isShader : Bool) (scope : Scope) :
    Ends (fun o' s' => ∃ calls, Called calls s s' ∧ ∃ code o,
        Plugin.Preprocess isShader (s.pluginsOf scope) (Comment.strip source) calls code ∧
          (Outline.read path code).1 = .ok o ∧
            List.Forall₂ Numbers o.declarations o'.declarations ∧
              o' = { o with declarations := o'.declarations })
      (fun s' => (∃ calls, Called calls s s' ∧ calls.Reads (s.pluginsOf scope)) ∧
        (s.pluginsOf scope = [] → ¬ CanRead path source))
      (readSource path source isShader scope s) := by
  unfold readSource
  apply ends_bind.2
  apply ends_get.2
  refine ((ends_preprocessAll _ isShader _).mono (fun code s₁ => ?_) fun s₁ h =>
    ⟨h.1, fun hnone => absurd hnone h.2⟩) |> ends_bind.2
  rintro ⟨calls, hs₁, hcode⟩
  refine (ends_notes_calls _).bind fun _ s₂ hnotes => ?_
  have hs₂ := hs₁.trans hnotes
  rw [List.append_nil] at hs₂
  apply ends_bind.2
  apply ends_ofExcept.2
  have hreads : calls.Reads (s.pluginsOf scope) :=
    ⟨hcode.calls_eq.1 ▸ List.prefix_rfl, hcode.calls_eq.2⟩
  refine ⟨fun o ho => ?_, fun fault hfault => ⟨⟨_, hs₂, hreads⟩, fun hnone => ?_⟩⟩
  rotate_left
  · have hsame : code = Comment.strip source := by
      rw [hnone] at hcode
      cases hcode
      rfl
    rintro ⟨o, ho⟩
    rw [← hsame] at ho
    cases ho.symm.trans hfault
  refine (ends_stamp_numbers _).bind fun ds s₃ => ?_
  rintro ⟨hstamp, hds⟩
  have hs₃ := hs₂.trans hstamp
  rw [List.append_nil] at hs₃
  exact ⟨calls, hs₃, code, o, hcode, ho, hds, rfl⟩

theorem ends_makeModule_calls (path source : Text) (scope : Scope) (isShader : Bool) :
    Ends (fun i s' => i = s.modules.size ∧ ∃ calls s₁ m, Called calls s s₁ ∧
        s' = { s₁ with modules := s₁.modules.push m } ∧ m.path = path ∧ m.source = source ∧
          m.scope = scope ∧ m.ReadWith (s.pluginsOf scope) calls)
      (fun s' => (∃ calls, Called calls s s' ∧ calls.Reads (s.pluginsOf scope)) ∧
        (s.pluginsOf scope = [] → ¬ CanRead path source))
      (makeModule path source scope isShader s) := by
  unfold makeModule
  refine (ends_readSource_calls path source isShader scope).bind fun o' s₁ => ?_
  rintro ⟨calls, hs₁, code, o, hcode, ho, hds, hsame⟩
  apply ends_bind.2
  apply ends_get.2
  apply ends_bind.2
  apply ends_set.2
  apply ends_pure.2
  refine ⟨by rw [hs₁.modules], calls, s₁, _, hs₁, rfl, rfl, rfl, rfl, code, o, hcode, ho, hds, ?_⟩
  rw [hsame]
  exact ⟨rfl, rfl, rfl⟩

/-- A module that gets a new scope is read again with the plugins of that scope. -/
theorem ends_bindModule_calls {i : ModuleId} {scope : Scope} (hi : i < s.modules.size)
    (hserial : (s.module i).scope.serial ≠ scope.serial) :
    Ends (fun _ s' => ∃ calls, Alters i calls s s' ∧ (s'.module i).scope = scope ∧
        (s'.module i).ReadWith (s.pluginsOf scope) calls)
      (fun s' => (∃ calls, Alters i calls s s' ∧ s'.module i = { s.module i with scope } ∧
          calls.Reads (s.pluginsOf scope)) ∧
        (s.pluginsOf scope = [] → ¬ CanRead (s.module i).path (s.module i).source))
      (bindModule i scope s) := by
  unfold bindModule
  apply ends_bind.2
  apply ends_get.2
  rw [if_neg hserial]
  apply ends_bind.2
  apply ends_modify.2
  let s₁ : Store := { s with modules := s.modules.modify i fun m => { m with scope } }
  have hs₁ : Alters i [] s s₁ :=
    (Alters.refl i s).change (fun _ => rfl) (fun _ => rfl) fun _ => rfl
  have hm₁ : s₁.module i = { s.module i with scope } := by
    rw [module_modify, if_pos ⟨rfl, hi⟩]
  refine (ends_readSource_calls (s.module i).path (s.module i).source (s.module i).isShader
    scope).mono (fun o' s₂ => ?_) (fun s₂ => ?_) |> ends_bind.2
  · rintro ⟨calls, hs₂, code, o, hcode, ho, hds, hsame⟩
    apply ends_modify.2
    have hsize : i < s₂.modules.size := by
      rw [hs₂.modules]
      exact hs₁.modules_size ▸ hi
    refine ⟨calls, (hs₁.trans (hs₂.alters i)).change (fun _ => rfl) (fun _ => rfl) fun _ => rfl,
      ?_⟩
    rw [module_modify, if_pos ⟨rfl, hsize⟩, hs₂.toQuiet.module, hm₁]
    refine ⟨rfl, code, o, hcode, ho, hds, ?_⟩
    rw [hsame]
    exact ⟨rfl, rfl, rfl⟩
  · rintro ⟨⟨calls, hs₂, hreads⟩, hread⟩
    refine ⟨⟨calls, hs₁.trans (hs₂.alters i), ?_, hreads⟩, hread⟩
    rw [hs₂.toQuiet.module, hm₁]

end Reading

/-! ## Applying plugins -/

section Apply

variable {s : Store} {i : ModuleId}

/-- What may be left of a module if a plugin fails, after some calls. -/
def Store.Spoils (i : ModuleId) (P : Calls → Prop) (s s' : Store) : Prop :=
  ∃ calls, P calls ∧ Alters i calls s s' ∧ (s'.module i).scope = (s.module i).scope

theorem Store.Spoils.after {P P' : Calls → Prop} {s' s'' : Store} {calls : Calls}
    (h : Alters i calls s s') (hscope : (s'.module i).scope = (s.module i).scope)
    (h' : Spoils i P' s' s'') (hP : ∀ calls', P' calls' → P (calls ++ calls')) :
    Spoils i P s s'' := by
  obtain ⟨calls', hP', h', hscope'⟩ := h'
  exact ⟨_, hP _ hP', h.trans h', hscope'.trans hscope⟩

/-- Changes the module, without any calls. -/
theorem Store.alters_changeModule (s : Store) {f : Module → Module}
    (hpath : ∀ m, (f m).path = m.path) (hsource : ∀ m, (f m).source = m.source)
    (hshader : ∀ m, (f m).isShader = m.isShader) :
    Alters i [] s { s with modules := s.modules.modify i f } :=
  (Alters.refl i s).change hpath hsource hshader

variable {m : Module} {seen : Surroundings} {ds : List Declaration}

theorem ends_transformWith (p : Plugin) (hi : i < s.modules.size)
    (hm : s.module i = m.showing seen ds) :
    Ends (fun _ s' => ∃ seen' ds', seen'.path = seen.path ∧
        Alters i [(p.serial, .transform m.isShader (ds.map (·.key)) seen)] s s' ∧
          s'.module i = m.showing seen' ds' ∧ ∀ ps calls final result,
            Plugin.Transform m.isShader ps seen' ds' calls final result →
              Plugin.Transform m.isShader (p :: ps) seen ds
                ((p.serial, .transform m.isShader (ds.map (·.key)) seen) :: calls) final result)
      (Spoils i (Calls.Applies [p] seen.path) s) (transformWith i p s) := by
  unfold transformWith
  apply ends_bind.2
  apply ends_get.2
  rw [hm]
  apply ends_bind.2
  apply ends_modify.2
  apply ends_bind.2
  apply ends_modify.2
  let call := (p.serial, Call.transform m.isShader (ds.map (·.key)) seen)
  let s₁ : Store := { s with calls := s.calls ++ [call] }
  cases ht : p.transform m.isShader seen ds with
  | mk edited replacement =>
    let f : Module → Module := fun m' => m'.showing (m'.seen.refresh edited) edited
    let s₂ : Store := { s₁ with modules := s₁.modules.modify i f }
    have hs₂ : Alters i [call] s s₂ :=
      ((called_remember p call.2).alters i).change (fun _ => rfl) (fun _ => rfl) fun _ => rfl
    have hm₂ : s₂.module i = m.showing (seen.refresh edited) edited := by
      rw [module_modify, if_pos ⟨rfl, hi⟩, show s₁.module i = m.showing seen ds from hm]
      rfl
    have hscope₂ : (s₂.module i).scope = (s.module i).scope := by
      rw [hm₂, hm]
      rfl
    apply ends_bind.2
    have hseen : p.transform (m.showing seen ds).isShader (m.showing seen ds).seen
        (m.showing seen ds).declarations = ⟨edited, replacement⟩ := ht
    rw [hseen]
    apply ends_ofExcept.2
    refine ⟨fun new hnew => ?_, fun _ _ => ⟨[call], Calls.Applies.nil.cons, hs₂, hscope₂⟩⟩
    change replacement = .ok new at hnew
    subst hnew
    cases new with
    | none => exact ⟨seen.refresh edited, edited, rfl, hs₂, hm₂, fun _ _ _ _ hps => .kept ht hps⟩
    | some new =>
      refine (ends_stamp_numbers new).bind fun numbered s₃ => ?_
      rintro ⟨hs₃ : Called [] s₂ s₃, hnew⟩
      apply ends_modify.2
      have hsize : i < s₃.modules.size := by
        rw [hs₃.modules]
        exact hs₂.modules_size ▸ hi
      refine ⟨(seen.refresh edited).replace numbered, numbered, rfl,
        (hs₂.trans (hs₃.alters i)).change (fun _ => rfl) (fun _ => rfl) fun _ => rfl, ?_,
        fun _ _ _ _ hps => .replaced ht hnew hps⟩
      rw [module_modify, if_pos ⟨rfl, hsize⟩, hs₃.toQuiet.module, hm₂]
      rfl

theorem ends_transforms (plugins : List Plugin) (hi : i < s.modules.size)
    (hm : s.module i = m.showing seen ds) :
    Ends (fun _ s' => ∃ seen' ds' calls, Alters i calls s s' ∧
        s'.module i = m.showing seen' ds' ∧
          Plugin.Transform m.isShader plugins seen ds calls seen' ds')
      (Spoils i (Calls.Applies plugins seen.path) s) (plugins.forM (transformWith i) s) := by
  induction plugins generalizing s seen ds with
  | nil => exact ⟨seen, ds, [], .refl i s, hm, .nil seen ds⟩
  | cons p ps ih =>
    refine ((ends_transformWith p hi hm).mono (fun _ _ h => h) fun s₁ => ?_).bind fun _ s₁ => ?_
    · rintro ⟨calls, hcalls, h⟩
      exact ⟨calls, ⟨hcalls.preprocessed, hcalls.transformed.trans (by simp)⟩, h⟩
    rintro ⟨seen₁, ds₁, hpath, hs₁, hm₁, hstep⟩
    refine (ih (hs₁.modules_size ▸ hi) hm₁).mono (fun _ s₂ => ?_) fun s₂ h => ?_
    · rintro ⟨seen₂, ds₂, calls, hs₂, hm₂, hps⟩
      exact ⟨seen₂, ds₂, _, hs₁.trans hs₂, hm₂, hstep _ _ _ _ hps⟩
    · refine h.after hs₁ (by rw [hm₁, hm]; rfl) fun calls' hcalls' => ?_
      rw [hpath] at hcalls'
      exact hcalls'.cons

theorem ends_postprocessAt (p : Plugin) {n : Nat} (hn : n < ds.length) (hi : i < s.modules.size)
    (hm : s.module i = m.showing seen ds) :
    Ends (fun _ s' => ∃ seen' ds' call, ds'.length = ds.length ∧ Calls.ForDefinitions [call] ∧
        Alters i [call] s s' ∧ s'.module i = m.showing seen' ds' ∧ ∀ calls final result,
          p.Rewrites m.isShader (n + 1) seen' ds' calls final result →
            p.Rewrites m.isShader n seen ds (call :: calls) final result)
      (Spoils i Calls.ForDefinitions s) (postprocessAt i p n s) := by
  have hd : ds[n]? = some ds[n] := List.getElem?_eq_getElem hn
  unfold postprocessAt
  apply ends_bind.2
  apply ends_get.2
  rw [hm, show (m.showing seen ds).declarations[n]? = some ds[n] from hd]
  apply ends_bind.2
  apply ends_modify.2
  let call := (p.serial, Call.postprocess m.isShader ds[n].key ds[n].definition)
  let s₁ : Store := { s with calls := s.calls ++ [call] }
  have hs₁ : Alters i [call] s s₁ := (called_remember p call.2).alters i
  apply ends_bind.2
  apply ends_ofExcept.2
  refine ⟨fun definition hdefinition => ?_, fun _ _ => ⟨[call], ⟨rfl, rfl⟩, hs₁, rfl⟩⟩
  apply ends_modify.2
  let edited := [{ ds[n] with definition }]
  let f : Module → Module := fun m' =>
    m'.showing (m'.seen.refresh edited) (m'.declarations.map (·.latest edited))
  refine ⟨seen.refresh edited, ds.map (·.latest edited), call, List.length_map _, ⟨rfl, rfl⟩,
    hs₁.change (f := f) (fun _ => rfl) (fun _ => rfl) fun _ => rfl, ?_,
    fun _ _ _ hrest => .step hd hdefinition hrest⟩
  show Store.module { s₁ with modules := s₁.modules.modify i f } i = _
  rw [module_modify, if_pos ⟨rfl, hi⟩, show s₁.module i = m.showing seen ds from hm]
  rfl

theorem ends_postprocessWith (p : Plugin) (hi : i < s.modules.size)
    (hm : s.module i = m.showing seen ds) :
    Ends (fun _ s' => ∃ seen' ds' calls, Alters i calls s s' ∧
        s'.module i = m.showing seen' ds' ∧ p.Rewrites m.isShader 0 seen ds calls seen' ds')
      (Spoils i Calls.ForDefinitions s) (postprocessWith i p s) := by
  unfold postprocessWith
  apply ends_bind.2
  apply ends_get.2
  rw [hm, show (m.showing seen ds).declarations.length = ds.length from rfl, List.range_eq_range']
  -- the induction is on how many places are left, those from `n` on
  generalize hk : ds.length = k
  have hn : 0 + k = ds.length := by omega
  clear hk
  generalize 0 = n at hn ⊢
  induction k generalizing n s seen ds with
  | zero => exact ⟨seen, ds, [], .refl i s, hm, .done hn⟩
  | succ k ih =>
    rw [List.range'_succ]
    refine (ends_postprocessAt p (by omega) hi hm).bind fun _ s₁ => ?_
    rintro ⟨seen₁, ds₁, call, hlength, hcall, hs₁, hm₁, hstep⟩
    refine (ih (hs₁.modules_size ▸ hi) hm₁ (n + 1) (by omega)).mono (fun _ s₂ => ?_) fun s₂ h => ?_
    · rintro ⟨seen₂, ds₂, calls, hs₂, hm₂, hrest⟩
      exact ⟨seen₂, ds₂, _, hs₁.trans hs₂, hm₂, hstep _ _ _ hrest⟩
    · refine h.after hs₁ (by rw [hm₁, hm]; rfl) fun calls h' => ?_
      exact hcall.append h'

theorem ends_postprocesses (plugins : List Plugin) (hi : i < s.modules.size)
    (hm : s.module i = m.showing seen ds) :
    Ends (fun _ s' => ∃ seen' ds' calls, Alters i calls s s' ∧
        s'.module i = m.showing seen' ds' ∧
          Plugin.Postprocess m.isShader plugins seen ds calls seen' ds')
      (Spoils i Calls.ForDefinitions s) (plugins.forM (postprocessWith i) s) := by
  induction plugins generalizing s seen ds with
  | nil => exact ⟨seen, ds, [], .refl i s, hm, .nil seen ds⟩
  | cons p ps ih =>
    refine (ends_postprocessWith p hi hm).bind fun _ s₁ => ?_
    rintro ⟨seen₁, ds₁, calls₁, hs₁, hm₁, hstep⟩
    refine (ih (hs₁.modules_size ▸ hi) hm₁).mono (fun _ s₂ => ?_) fun s₂ h => ?_
    · rintro ⟨seen₂, ds₂, calls, hs₂, hm₂, hps⟩
      exact ⟨seen₂, ds₂, _, hs₁.trans hs₂, hm₂, .cons hstep hps⟩
    · exact h.after hs₁ (by rw [hm₁, hm]; rfl) fun _ h' => hstep.forDefinitions.append h'

/-- The plugins of the module's scope are applied to it as it is once everything it needs is
found. -/
theorem ends_applyTo {reach : List Declaration → Table Text LibraryId → LinkM (List Declaration)}
    {Q : List Declaration → Store → Prop} {E : Store → Prop}
    (hreach : Ends Q E (reach (s.module i).declarations (s.librariesOf (s.module i).scope) s))
    (hi : ∀ found s', Q found s' → i < s'.modules.size) :
    Ends (fun _ s' => ∃ found s₁ calls, Q found s₁ ∧ Alters i calls s₁ s' ∧
        (s₁.module i).AppliedTo (s.pluginsOf (s.module i).scope) found calls (s'.module i))
      (fun s' => E s' ∨ ∃ found s₁, Q found s₁ ∧
        Spoils i (Calls.Applies (s.pluginsOf (s.module i).scope) (s₁.module i).path) s₁ s')
      (applyPluginsWith reach i s) := by
  unfold applyPluginsWith
  apply ends_bind.2
  apply ends_get.2
  refine (hreach.mono (fun found s₁ h => ?_) fun _ h => Or.inl h) |> ends_bind.2
  have hi₁ := hi found s₁ h
  apply ends_bind.2
  apply ends_modify.2
  let plugins := s.pluginsOf (s.module i).scope
  let m := s₁.module i
  let seen : Surroundings := .of m.path m.declarations m.imports found
  let s₂ : Store := { s₁ with modules := s₁.modules.modify i fun m =>
    { m with surroundings := some (.of m.path m.declarations m.imports found) } }
  have hs₂ : Alters i [] s₁ s₂ := s₁.alters_changeModule (fun _ => rfl) (fun _ => rfl) fun _ => rfl
  have hm₂ : s₂.module i = m.showing seen m.declarations := by
    rw [module_modify, if_pos ⟨rfl, hi₁⟩]
    rfl
  have hi₂ : i < s₂.modules.size := hs₂.modules_size ▸ hi₁
  have hscope₂ : (s₂.module i).scope = m.scope := by rw [hm₂]; rfl
  refine ((ends_transforms plugins hi₂ hm₂).mono (fun _ s₃ => ?_) fun s₃ h₃ =>
    Or.inr ⟨found, s₁, h, h₃.after hs₂ hscope₂ fun _ h => h⟩) |> ends_bind.2
  rintro ⟨seen₃, ds₃, transforms, hs₃, hm₃, htransform⟩
  have hi₃ : i < s₃.modules.size := hs₃.modules_size ▸ hi₂
  have hscope₃ : (s₃.module i).scope = m.scope := by rw [hm₃]; rfl
  have happlies : Calls.Applies plugins m.path transforms :=
    ⟨htransform.calls_eq.1, htransform.calls_eq.2 ▸ List.prefix_rfl⟩
  refine ((ends_postprocesses plugins hi₃ hm₃).mono (fun _ s₄ => ?_) fun s₄ h₄ =>
    Or.inr ⟨found, s₁, h, h₄.after (hs₂.trans hs₃) hscope₃ fun _ h =>
      happlies.append h⟩) |> ends_bind.2
  rintro ⟨seen₄, ds₄, postprocesses, hs₄, hm₄, hpostprocess⟩
  have hs := (hs₂.trans hs₃).trans hs₄
  have happlied : m.AppliedTo plugins found (transforms ++ postprocesses) (s₄.module i) :=
    ⟨seen₃, ds₃, seen₄, ds₄, transforms, postprocesses, htransform, hpostprocess, rfl, hm₄⟩
  split
  · apply ends_modify.2
    have hnote := hs.trans ((called_note (.appliedPlugins (s.module i).path
      (plugins.map (·.id)))).alters i)
    rw [List.append_nil] at hnote
    exact ⟨found, s₁, _, h, hnote, happlied⟩
  · exact ⟨found, s₁, _, h, hs, happlied⟩

end Apply

end ShaderLink
