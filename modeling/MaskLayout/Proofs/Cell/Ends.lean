import MaskLayout.Proofs.Cell.Edit

/-!
# Both ends of an edit

How a change of a cell ends. A change succeeds with an answer or fails with an error, and a cell is left in both cases.
The rules below follow a change step by step to both ends at once, so that what a failure leaves behind is never lost.
-/

namespace MaskLayout

variable [PolygonLibrary]

namespace Edit

variable {α β : Type} {e : Edit α} {c c' d : Cell} {done done' : α → Cell → Prop}
  {failed failed' : LayoutError → Cell → Prop}

/-- `Ends e c done failed` says that the change `e` of the cell `c` ends with an answer and a cell as `done` says, or
with an error and a cell as `failed` says. -/
def Ends (e : Edit α) (c : Cell) (done : α → Cell → Prop) (failed : LayoutError → Cell → Prop) : Prop :=
  match e c with
  | .ok a c' => done a c'
  | .error x c' => failed x c'

/-- The cell that a change leaves, whether it succeeds or fails. -/
def leaves (e : Edit α) (c : Cell) : Cell :=
  match e c with
  | .ok _ c' => c'
  | .error _ c' => c'

/-- Whether a change fails. -/
def fails (e : Edit α) (c : Cell) : Bool :=
  match e c with
  | .ok _ _ => false
  | .error _ _ => true

theorem leaves_of_ok {a : α} (hrun : e c = .ok a c') : leaves e c = c' := by
  rw [leaves, hrun]

theorem leaves_of_error {x : LayoutError} (hrun : e c = .error x c') : leaves e c = c' := by
  rw [leaves, hrun]

theorem exists_error_of_fails (h : fails e c = true) : ∃ x, e c = .error x (leaves e c) := by
  unfold fails at h
  unfold leaves
  cases hrun : e c with
  | ok a c' =>
      rw [hrun] at h
      cases h
  | error x c' => exact ⟨x, rfl⟩

theorem exists_ok_of_fails (h : fails e c = false) : ∃ a, e c = .ok a (leaves e c) := by
  unfold fails at h
  unfold leaves
  cases hrun : e c with
  | ok a c' => exact ⟨a, rfl⟩
  | error x c' =>
      rw [hrun] at h
      cases h

theorem Ends.mono (h : Ends e c done failed) (hdone : ∀ a c', done a c' → done' a c')
    (hfailed : ∀ x c', failed x c' → failed' x c') : Ends e c done' failed' := by
  unfold Ends at *
  cases hrun : e c with
  | ok a c' =>
      rw [hrun] at h
      exact hdone a c' h
  | error x c' =>
      rw [hrun] at h
      exact hfailed x c' h

theorem Ends.of_ok {a : α} (h : Ends e c done failed) (hrun : e c = .ok a c') : done a c' := by
  rwa [Ends, hrun] at h

theorem Ends.of_error {x : LayoutError} (h : Ends e c done failed) (hrun : e c = .error x c') : failed x c' := by
  rwa [Ends, hrun] at h

/-- What is known of every success of a change can be added to how it ends. -/
theorem Ends.and_ok (h : Ends e c done failed) (hok : ∀ a c', e c = .ok a c' → done' a c') :
    Ends e c (fun a c' => done a c' ∧ done' a c') failed := by
  unfold Ends at *
  cases hrun : e c with
  | ok a c' =>
      rw [hrun] at h
      exact ⟨h, hok a c' hrun⟩
  | error x c' =>
      rw [hrun] at h
      exact h

theorem Ends.leaves {P : Cell → Prop} (h : Ends e c (fun _ c' => P c') fun _ c' => P c') : P (leaves e c) := by
  unfold Ends at h
  unfold Edit.leaves
  cases hrun : e c with
  | ok a c' => rwa [hrun] at h
  | error x c' => rwa [hrun] at h

@[simp] theorem ends_pure {a : α} : Ends (pure a) c done failed ↔ done a c := Iff.rfl

@[simp] theorem ends_throw {x : LayoutError} : Ends (throw x : Edit α) c done failed ↔ failed x c := Iff.rfl

@[simp] theorem ends_get {done : Cell → Cell → Prop} : Ends get c done failed ↔ done c c := Iff.rfl

@[simp] theorem ends_set {done : PUnit → Cell → Prop} : Ends (set d) c done failed ↔ done ⟨⟩ d := Iff.rfl

@[simp] theorem ends_modify {f : Cell → Cell} {done : PUnit → Cell → Prop} :
    Ends (modify f) c done failed ↔ done ⟨⟩ (f c) := Iff.rfl

@[simp] theorem ends_check {x : Except LayoutError α} :
    Ends (check x) c done failed ↔ (∀ a, x = .ok a → done a c) ∧ ∀ y, x = .error y → failed y c := by
  cases x <;> simp [check]

@[simp] theorem ends_bind {f : α → Edit β} {done : β → Cell → Prop} :
    Ends (e >>= f) c done failed ↔ Ends e c (fun a d => Ends (f a) d done failed) failed := by
  change (match EStateM.bind e f c with
    | .ok b c' => done b c'
    | .error x c' => failed x c') ↔ _
  unfold Ends EStateM.bind
  cases e c <;> rfl

theorem ends_onLayer {key : LayerKey} {f : LayerGeometry → Except LayoutError LayerGeometry}
    {done : Unit → Cell → Prop} :
    Ends (onLayer key f) c done failed ↔
      (∀ g, f (c.layerAt key) = .ok g → done () { c with layers := c.layers.insert key g }) ∧
      ∀ x, f (c.layerAt key) = .error x → failed x { c with layers := c.layers.insert key (c.layerAt key) } := by
  simp only [onLayer, ends_bind, ends_get, ends_set, ends_check, CellOf.layerAt]

/-- What each step of a traversal makes of the part that is done holds at the end, unless a step fails. -/
theorem ends_forM_induction {f : α → Edit Unit} {l : List α} (P : List α → Cell → Prop) (hstart : P [] c)
    (hstep : ∀ done a rest d, done ++ a :: rest = l → P done d → Ends (f a) d (fun _ d' => P (done ++ [a]) d') failed) :
    Ends (l.forM f) c (fun _ c' => P l c') failed := by
  suffices haux : ∀ rest done d, done ++ rest = l → P done d → Ends (rest.forM f) d (fun _ c' => P l c') failed from
    haux l [] c rfl hstart
  intro rest
  induction rest with
  | nil =>
      intro done d hl hd
      rw [List.append_nil] at hl
      exact hl ▸ hd
  | cons a rest ih =>
      intro done d hl hd
      change Ends (f a >>= fun _ => rest.forM f) d _ _
      rw [ends_bind]
      refine (hstep done a rest d hl hd).mono (fun _ d' hd' => ?_) fun _ _ hx => hx
      exact ih (done ++ [a]) d' (by rw [List.append_assoc, List.singleton_append, hl]) hd'

/-- What every step of a traversal keeps, and leaves when it fails, holds at both ends of the traversal. -/
theorem ends_forM {f : α → Edit Unit} {l : List α} {I : Cell → Prop} {failed : LayoutError → Cell → Prop} (hstart : I c)
    (hstep : ∀ a ∈ l, ∀ d, I d → Ends (f a) d (fun _ d' => I d') failed) :
    Ends (l.forM f) c (fun _ c' => I c') failed := by
  refine ends_forM_induction (fun _ d => I d) hstart fun done a rest d hl hd => ?_
  exact hstep a (hl ▸ List.mem_append_right done List.mem_cons_self) d hd

/-- A traversal succeeds exactly if each member meets the condition under which its step succeeds. -/
theorem ends_forM_iff {f : α → Edit Unit} {l : List α} {I : Cell → Prop} {p : α → Prop} (hstart : I c)
    (hstep : ∀ a ∈ l, ∀ d, I d → Ends (f a) d (fun _ d' => I d' ∧ p a) fun _ d' => I d' ∧ ¬ p a) :
    Ends (l.forM f) c (fun _ c' => I c' ∧ ∀ a ∈ l, p a) fun _ c' => I c' ∧ ¬ ∀ a ∈ l, p a := by
  induction l generalizing c with
  | nil => exact ⟨hstart, fun a ha => (List.not_mem_nil ha).elim⟩
  | cons a rest ih =>
      obtain ⟨hfirst, hrest⟩ := List.forall_mem_cons.1 hstep
      change Ends (f a >>= fun _ => rest.forM f) c _ _
      simp only [ends_bind, List.forall_mem_cons]
      refine (hfirst c hstart).mono (fun _ d hd => ?_) fun _ d hd => ⟨hd.1, fun hall => hd.2 hall.1⟩
      refine (ih hd.1 hrest).mono (fun _ c' hc' => ⟨hc'.1, hd.2, hc'.2⟩) fun _ c' hc' => ⟨hc'.1, fun hall => ?_⟩
      exact hc'.2 hall.2

theorem ends_onLayer_of_ok {key : LayerKey} {f : LayerGeometry → Except LayoutError LayerGeometry} {g : LayerGeometry}
    {done : Unit → Cell → Prop} (hg : f (c.layerAt key) = .ok g) :
    Ends (onLayer key f) c done failed ↔ done () { c with layers := c.layers.insert key g } := by
  simp only [ends_onLayer, hg, Except.ok.injEq, forall_eq', reduceCtorEq, false_imp_iff, implies_true, and_true]

/-- An object is added at once or not at all, as its own addition ends. -/
theorem ends_add [CellObject α] {o : α} {done : Unit → Cell → Prop} :
    Ends (add o) c done failed ↔ Ends (CellObject.addTo o) c (fun _ c' => done () c') failed := by
  simp only [add, Proposal.make, if_true, ends_bind, ends_pure]

/-- `Decides e c p done` says that the change `e` of the cell `c` succeeds exactly if `p` holds, and then ends as `done`
says; and that it leaves the cell as it is if it fails. -/
def Decides (e : Edit α) (c : Cell) (p : Prop) (done : α → Cell → Prop) : Prop :=
  Ends e c (fun a c' => p ∧ done a c') fun _ c' => c' = c ∧ ¬ p

variable {p q : Prop}

theorem Decides.of_ok {a : α} (h : Decides e c p done) (hrun : e c = .ok a c') : p ∧ done a c' :=
  Ends.of_ok h hrun

/-- A change that fails leaves the cell as it is. -/
theorem Decides.of_error {x : LayoutError} (h : Decides e c p done) (hrun : e c = .error x c') : c' = c ∧ ¬ p :=
  Ends.of_error h hrun

theorem Decides.ends (h : Decides e c p done) (hdone : ∀ a c', done a c' → done' a c') :
    Ends e c done' fun _ c' => c' = c :=
  Ends.mono h (fun a c' ha => hdone a c' ha.2) fun _ _ hx => hx.1

theorem Decides.mono (h : Decides e c p done) (hdone : ∀ a c', done a c' → done' a c') : Decides e c p done' :=
  Ends.mono h (fun a c' ha => ⟨ha.1, hdone a c' ha.2⟩) fun _ _ hx => hx

theorem Decides.congr (h : Decides e c p done) (hpq : p ↔ q) : Decides e c q done := by
  rwa [Decides, ← hpq]

theorem Decides.exists_ok_iff (h : Decides e c p done) : (∃ a c', e c = .ok a c') ↔ p := by
  constructor
  · rintro ⟨a, c', hrun⟩
    exact (h.of_ok hrun).1
  · intro hp
    cases hrun : e c with
    | ok a c' => exact ⟨a, c', rfl⟩
    | error x c' => exact absurd hp (h.of_error hrun).2

theorem decides_get_bind {f : Cell → Edit β} {done : β → Cell → Prop} :
    Decides (get >>= f) c p done ↔ Decides (f c) c p done := by
  simp only [Decides, ends_bind, ends_get]

/-- A check before a change that is decided by `p` adds to what decides. -/
theorem decides_check_bind {x : Except LayoutError α} {f : α → Edit β} {done : β → Cell → Prop} {p : α → Prop}
    (h : ∀ a, x = .ok a → Decides (f a) c (p a) done) :
    Decides (check x >>= f) c (∃ a, x = .ok a ∧ p a) done := by
  cases x with
  | error y =>
      simp only [Decides, check, ends_bind, ends_throw, reduceCtorEq, false_and, exists_false, not_false_eq_true,
        and_true]
  | ok a =>
      simpa only [Decides, check, pure_bind, Except.ok.injEq, exists_eq_left'] using h a rfl

theorem decides_require_bind {x : Except LayoutError Unit} {f : Unit → Edit β} {done : β → Cell → Prop}
    (h : x = .ok () → Decides (f ()) c p done) : Decides (check x >>= f) c (x = .ok () ∧ p) done := by
  refine (decides_check_bind (p := fun _ => p) fun _ hx => h hx).congr ?_
  rw [Unique.exists_iff]

/-- A traversal whose steps are all decided by one condition is decided by it: it fails at its first step or not at
all. -/
theorem decides_forM {f : α → Edit Unit} {l : List α} {I : Cell → Prop} (hstart : I c)
    (hstep : ∀ a ∈ l, ∀ d, I d → Decides (f a) d p fun _ d' => I d') :
    Decides (l.forM f) c (l ≠ [] → p) fun _ c' => I c' := by
  cases l with
  | nil => exact ⟨fun hne => absurd rfl hne, hstart⟩
  | cons a rest =>
      obtain ⟨hfirst, hrest⟩ := List.forall_mem_cons.1 hstep
      change Ends (f a >>= fun _ => rest.forM f) c _ _
      rw [ends_bind]
      refine Ends.mono (hfirst c hstart) (fun _ d hd => ?_) fun _ d hd => ⟨hd.1, fun hp => hd.2 (hp (by simp))⟩
      have hnever : Ends (rest.forM f) d (fun _ c' => I c') fun _ _ => False := ends_forM hd.2 fun b hb d' hd' =>
        Ends.mono (hrest b hb d' hd') (fun _ _ hdone => hdone.2) fun _ _ hx => hx.2 hd.1
      exact hnever.mono (fun _ _ hc' => ⟨fun _ => hd.1, hc'⟩) fun _ _ hx => hx.elim

theorem Decides.add [CellObject α] {o : α} {P : Cell → Prop} (h : Decides (CellObject.addTo o) c p done)
    (hdone : ∀ o' c', done o' c' → P c') : Decides (add o) c p fun _ c' => P c' :=
  ends_add.2 (Ends.mono h (fun o' c' ho' => ⟨ho'.1, hdone o' c' ho'.2⟩) fun _ _ hx => hx)

end Edit

end MaskLayout
