import MaskLayout.Proofs.Cell.Reachable

/-!
# Automatic instance names

Automatic instance names. A cell counts them, and nothing but the search for the next one moves the count. The search
goes up from the count to the first number whose name is free, and leaves the count just above it. So an automatic name
is free when it is taken, and none is taken twice in the life of a cell, whatever names are given to instances.
-/

namespace MaskLayout

section Library

variable [PolygonLibrary]

namespace Edit

open CellOf

variable {α β : Type} {n : Nat} {c c' d : Cell}

/-- Whether a change leaves the count of automatic names at `n`, whether it succeeds or fails. -/
def KeepsCount (n : Nat) (e : Edit α) : Prop :=
  ∀ c, c.nameCount = n → Ends e c (fun _ c' => c'.nameCount = n) fun _ c' => c'.nameCount = n

theorem keepsCount_pure (a : α) : KeepsCount n (pure a) := fun _ hc => hc

theorem keepsCount_throw (x : LayoutError) : KeepsCount n (throw x : Edit α) := fun _ hc => hc

theorem keepsCount_check (x : Except LayoutError α) : KeepsCount n (check x) := by
  cases x with
  | ok a => exact keepsCount_pure a
  | error y => exact keepsCount_throw y

theorem keepsCount_set (h : d.nameCount = n) : KeepsCount n (set d) := fun _ _ => h

theorem keepsCount_modify {f : Cell → Cell} (h : ∀ c, (f c).nameCount = c.nameCount) : KeepsCount n (modify f) :=
  fun c hc => (h c).trans hc

theorem KeepsCount.bind {e : Edit α} {f : α → Edit β} (he : KeepsCount n e) (hf : ∀ a, KeepsCount n (f a)) :
    KeepsCount n (e >>= f) := by
  intro c hc
  rw [ends_bind]
  exact (he c hc).mono (fun a d hd => hf a d hd) fun _ _ hx => hx

/-- A change that goes on from the cell may rely on the count that the cell has. -/
theorem keepsCount_get_bind {f : Cell → Edit β} (hf : ∀ c, c.nameCount = n → KeepsCount n (f c)) :
    KeepsCount n (get >>= f) := by
  intro c hc
  rw [ends_bind, ends_get]
  exact hf c hc c hc

theorem KeepsCount.forM {f : α → Edit Unit} {l : List α} (hf : ∀ a, KeepsCount n (f a)) : KeepsCount n (l.forM f) :=
  fun _ hc => ends_forM hc fun a _ d hd => hf a d hd

theorem keepsCount_onLayer (key : LayerKey) (f : LayerGeometry → Except LayoutError LayerGeometry) :
    KeepsCount n (onLayer key f) :=
  fun _ hc => ends_onLayer.2 ⟨fun _ _ => hc, fun _ _ => hc⟩

theorem KeepsCount.add [CellObject α] {o : α} (h : KeepsCount n (CellObject.addTo o)) : KeepsCount n (add o) :=
  fun c hc => ends_add.2 (h c hc)

theorem keepsCount_shape (o : ShapeOn) : KeepsCount n (CellObject.addTo o) := by
  refine keepsCount_get_bind fun c hc => (keepsCount_check _).bind fun _ => ?_
  have hdraw : KeepsCount n (do draw o.key o.shape o.horiz; pure o) :=
    (keepsCount_onLayer _ _).bind fun _ => keepsCount_pure o
  dsimp only
  split
  · exact (keepsCount_throw _).bind fun _ => hdraw
  · exact hdraw

theorem keepsCount_pin (o : Pin) : KeepsCount n (CellObject.addTo o) := by
  refine keepsCount_get_bind fun c hc => (keepsCount_check _).bind fun _ => ?_
  split
  · exact keepsCount_throw _
  · rename_i r hr
    have hpins : KeepsCount n (do
        modify fun c => { c with pins := c.pins.insert o.layer (c.pinsOn o.layer ++ [o]) }
        pure o) :=
      KeepsCount.bind (keepsCount_modify fun _ => rfl) fun _ => keepsCount_pure o
    dsimp only
    split
    · exact (keepsCount_onLayer _ _).bind fun _ => hpins
    · exact hpins

theorem keepsCount_label (o : Label) : KeepsCount n (CellObject.addTo o) :=
  keepsCount_get_bind fun _ hc => (keepsCount_check _).bind fun _ => (keepsCount_set hc).bind fun _ => keepsCount_pure o

theorem keepsCount_blockage (o : Blockage) : KeepsCount n (CellObject.addTo o) := by
  refine keepsCount_get_bind fun c hc => ?_
  split
  · exact (keepsCount_check _).bind fun _ => (keepsCount_set hc).bind fun _ => keepsCount_pure o
  · exact (keepsCount_set hc).bind fun _ => keepsCount_pure o

theorem keepsCount_boundary (o : Boundary) : KeepsCount n (CellObject.addTo o) :=
  KeepsCount.bind (keepsCount_modify fun _ => rfl) fun _ => keepsCount_pure o

theorem keepsCount_via (o : ViaDrawing) : KeepsCount n (CellObject.addTo o) := by
  refine keepsCount_get_bind fun c hc => (keepsCount_check _).bind fun layers => ?_
  have hvias : KeepsCount n (do modify fun c => { c with vias := c.vias ++ [o.via] }; pure o) :=
    KeepsCount.bind (keepsCount_modify fun _ => rfl) fun _ => keepsCount_pure o
  dsimp only
  split
  · exact (keepsCount_onLayer _ _).bind fun _ => (keepsCount_onLayer _ _).bind fun _ => hvias
  · exact hvias

theorem keepsCount_recordInstance (i : Instance) : KeepsCount n (recordInstance i) := by
  unfold recordInstance
  split
  · exact keepsCount_pure _
  · exact KeepsCount.forM fun _ => KeepsCount.forM fun _ => keepsCount_onLayer _ _

theorem keepsCount_checkMaster (name : String) (m : Master) : KeepsCount n (checkMaster name m) :=
  fun c hc => Ends.mono (decides_checkMaster name m c) (fun _ _ hdone => hdone.2 ▸ hc) fun _ _ hx => hx.1 ▸ hc

theorem keepsCount_rebuild : KeepsCount n rebuild := by
  refine keepsCount_get_bind fun c hc => KeepsCount.bind (KeepsCount.forM fun key => ?_) fun _ => ?_
  · refine keepsCount_get_bind fun d hd => ?_
    split
    · exact keepsCount_pure _
    · exact (keepsCount_check _).bind fun _ => keepsCount_set hd
  · exact KeepsCount.forM keepsCount_recordInstance

theorem keepsCount_renameInstance (old new : String) : KeepsCount n (renameInstance old new) := by
  refine keepsCount_get_bind fun c hc => ?_
  have hmove : KeepsCount n (do
      let i ← check (c.theInstance old)
      set ((c.withoutInstance old).withInstance new { i with name := new })) :=
    (keepsCount_check _).bind fun _ => keepsCount_set hc
  dsimp only
  split
  · exact (keepsCount_check _).bind fun _ => keepsCount_pure _
  · split
    · exact (keepsCount_throw _).bind fun _ => hmove
    · exact hmove

theorem keepsCount_setMaster (name : String) (m : Master) : KeepsCount n (setMaster name m) := by
  refine keepsCount_get_bind fun c hc => (keepsCount_check _).bind fun i => (keepsCount_checkMaster name m).bind fun _ => ?_
  have hbind : KeepsCount n (set (c.withInstance name (i.bind m))) := keepsCount_set hc
  exact hbind.bind fun _ => keepsCount_rebuild

theorem keepsCount_setParam (name param : String) (value : ParamValue) : KeepsCount n (setParam name param value) :=
  keepsCount_get_bind fun _ hc => (keepsCount_check _).bind fun _ => (keepsCount_check _).bind fun _ => keepsCount_set hc

theorem keepsCount_setMode (m : Mode) : KeepsCount n (setMode m) := by
  refine keepsCount_get_bind fun c hc => ?_
  have hmode : KeepsCount n (do
      c.layers.keys.forM fun key => onLayer key fun g => g.withMode m
      modify fun c => { c with mode := m }) :=
    (KeepsCount.forM fun _ => keepsCount_onLayer _ _).bind fun _ => keepsCount_modify fun _ => rfl
  dsimp only
  split
  · exact (keepsCount_throw _).bind fun _ => hmode
  · exact hmode

theorem keepsCount_make [CellObject α] {o : α} (h : KeepsCount n (CellObject.addTo o)) (commit : Bool) :
    KeepsCount n (Proposal.make o commit) := by
  cases commit with
  | false => exact keepsCount_pure _
  | true => exact h.bind fun _ => keepsCount_pure _

/-- An instance with a name of its own is added under it. -/
theorem keepsCount_named {o : Instance} (hname : o.name ≠ "") : KeepsCount n (CellObject.addTo o) := by
  have hplace : KeepsCount n (do
      let name ← pure o.name
      recordInstance { o with name }
      modify fun c => c.withInstance name { o with name }
      return { o with name }) :=
    (keepsCount_pure _).bind fun _ => (keepsCount_recordInstance _).bind fun _ =>
      KeepsCount.bind (keepsCount_modify fun _ => rfl) fun _ => keepsCount_pure _
  refine keepsCount_get_bind fun c _ => ?_
  simp only [hname, if_false]
  split
  · refine (keepsCount_throw _).bind fun _ => ?_
    split
    · exact (keepsCount_checkMaster _ _).bind fun _ => hplace
    · exact hplace
  · split
    · exact (keepsCount_checkMaster _ _).bind fun _ => hplace
    · exact hplace

/-- Only adding an instance without a name can move the count. -/
theorem keepsCount_call {call : CellCall} (h : ∀ o, call = .op (.inst o) → o.name ≠ "") : KeepsCount n call.edit := by
  cases call with
  | path key horiz points halfWidth styles =>
      exact ((keepsCount_check _).bind fun _ => keepsCount_make (keepsCount_shape _) true).bind fun _ => keepsCount_pure _
  | bus key horiz points widths spaces styles =>
      exact ((keepsCount_check _).bind fun _ => keepsCount_make (keepsCount_shape _) true).bind fun _ => keepsCount_pure _
  | op o =>
      cases o with
      | shape o => exact (keepsCount_shape o).add
      | rects key horiz r tiling => exact KeepsCount.forM fun _ => (keepsCount_shape _).add
      | pin o => exact (keepsCount_pin o).add
      | pins net text level halfTrack lower upper width count pitch =>
          exact keepsCount_get_bind fun _ _ => (keepsCount_check _).bind fun _ => (keepsCount_check _).bind fun _ =>
            (keepsCount_check _).bind fun _ => KeepsCount.forM fun _ => (keepsCount_check _).bind fun _ =>
              (keepsCount_pin _).add
      | via o => exact (keepsCount_via o).add
      | vias v dirs tiling =>
          exact keepsCount_get_bind fun _ _ => (keepsCount_check _).bind fun _ => KeepsCount.forM fun _ =>
            (keepsCount_via _).add
      | wires ws =>
          exact keepsCount_get_bind fun _ _ => (keepsCount_check _).bind fun _ => (keepsCount_check _).bind fun _ =>
            (keepsCount_check _).bind fun _ => KeepsCount.forM fun _ => (keepsCount_check _).bind fun _ =>
              (keepsCount_shape _).add
      | label o => exact (keepsCount_label o).add
      | blockage o => exact (keepsCount_blockage o).add
      | boundary o => exact (keepsCount_boundary o).add
      | inst o => exact (keepsCount_named (h o rfl)).add
      | renameInstance old new => exact keepsCount_renameInstance old new
      | setMaster name m => exact keepsCount_setMaster name m
      | setParam name param value => exact keepsCount_setParam name param value
      | setMode m => exact keepsCount_setMode m
      | setName name => exact keepsCount_modify fun _ => rfl

/-- The numbers from the count of a cell on whose automatic names no instance has. -/
def FreeNumbers (c : Cell) : Set Nat := {k | c.nameCount ≤ k ∧ ∀ i ∈ c.instances, i.name ≠ s!"X{k}"}

/-- The next automatic name is that of the first free number, and moves the count just above it. -/
theorem nextName_eq (h : CellOf.Named c.instanceMap) :
    ∃ k, IsLeast (FreeNumbers c) k ∧ nextName c = .ok s!"X{k}" { c with nameCount := k + 1 } := by
  let names := c.instanceMap.map (·.1)
  have hfree {k : Nat} : (∀ i ∈ c.instances, i.name ≠ s!"X{k}") ↔ s!"X{k}" ∉ names := by
    simp only [names, h.keys_eq, List.mem_map, not_exists, not_and]
  obtain ⟨m, hm, heq, hbefore, hafter⟩ := freshIndex_spec names names.length c.nameCount
  refine ⟨freshIndex names names.length c.nameCount, ⟨⟨?_, hfree.2 (freshIndex_not_mem names _)⟩, fun k hk => ?_⟩, rfl⟩
  · omega
  · obtain ⟨hle, hk⟩ := hk
    by_contra hlt
    refine hfree.1 hk ?_
    have htaken := hbefore (k - c.nameCount) (by omega)
    rwa [Nat.add_sub_cancel' hle] at htaken

/-- An instance without a name takes its place under the next automatic one. -/
theorem addUnnamed_ok (hnamed : CellOf.Named c.instanceMap) {o o' : Instance} (hname : o.name = "")
    (h : CellObject.addTo o c = .ok o' c') :
    ∃ k, IsLeast (FreeNumbers c) k ∧ o' = { o with name := s!"X{k}" } ∧ c'.nameCount = k + 1 ∧
      c'.instanceMap = (c.withInstance o'.name o').instanceMap := by
  obtain ⟨k, hk, hnext⟩ := nextName_eq hnamed
  have hplace : ((do
      let name ← nextName
      recordInstance { o with name }
      modify fun c => c.withInstance name { o with name }
      return { o with name }) : Edit Instance) c = .ok o' c' := by
    simp only [CellObject.addTo, bind_iff, get_iff, hname, ne_eq, not_true, false_and, if_false, if_true] at h ⊢
    obtain ⟨_, _, ⟨rfl, rfl⟩, h⟩ := h
    cases hbound : o.bound? with
    | some m =>
        simp only [hbound, bind_iff] at h
        obtain ⟨_, d, hcheck, h⟩ := h
        obtain rfl := checkMaster_ok hcheck
        exact h
    | none =>
        simp only [hbound, bind_iff] at h
        exact h
  simp only [bind_iff, modify_iff, pure_iff, hnext] at hplace
  obtain ⟨_, _, ⟨⟩, _, d, hrecord, _, _, rfl, rfl, rfl⟩ := hplace
  have hcount : d.nameCount = k + 1 :=
    (keepsCount_recordInstance _ _ rfl).of_ok hrecord
  have hmap : d.instanceMap = c.instanceMap := (merges_recordInstance _ _ _ _ hrecord).instanceMap
  exact ⟨k, hk, rfl, hcount, by rw [withInstance, hmap, withInstance]⟩

end Edit

namespace CellCall

/-- The automatic name that a call takes: that of an instance that it adds without a name. -/
def autoName? (c : Cell) : CellCall → Option String
  | op (.inst o) =>
    if o.name = "" then
      match CellObject.addTo o c with
      | .ok o' _ => some o'.name
      | .error _ _ => none
    else none
  | _ => none

end CellCall

namespace CellOf

open Edit

variable {B : Master → Prop} {c c' : Cell} {names : List String}

/-- `History c names` says that `c` comes about like a reachable cell, and that `names` are the automatic names that were
taken on the way, the last one first. -/
inductive History : Cell → List String → Prop
  | empty {tech : Shared Tech} (h : tech.value.Loaded) (name : String) (mode : Mode) :
      History (CellOf.empty tech name mode) []
  | withGrid {c c' : Cell} {names : List String} {g : RoutingGrid} (h : History c names) (hloaded : g.Loaded)
      (hg : c.withGrid g = .ok c') : History c' names
  | call {c : Cell} {names : List String} (call : CellCall) (h : History c names) (hcall : call.Checked)
      (hmasters : ∀ m ∈ call.masters, Reachable m.cell) :
      History (call.edit.leaves c) ((call.autoName? c).toList ++ names)

theorem History.reachable (h : History c names) : Reachable c := by
  induction h with
  | empty h name mode => exact .empty h name mode
  | withGrid h hloaded hg ih => exact .withGrid ih hloaded hg
  | call _ h hcall hmasters ih => exact .call ih hcall hmasters

theorem Reachable.exists_history (h : Reachable c) : ∃ names, History c names := by
  induction h with
  | empty h name mode => exact ⟨_, .empty h name mode⟩
  | withGrid h hloaded hg ih =>
      obtain ⟨names, hnames⟩ := ih
      exact ⟨names, .withGrid hnames hloaded hg⟩
  | call h hcall hmasters ih =>
      obtain ⟨names, hnames⟩ := ih
      exact ⟨_, .call _ hnames hcall hmasters⟩

/-- A call leaves the count where it is or above, and takes a name of a number in between if it takes an automatic one. -/
theorem Reachable.autoName_between (h : Reachable c) {call : CellCall} (hmasters : ∀ m ∈ call.masters, Reachable m.cell) :
    c.nameCount ≤ (call.edit.leaves c).nameCount ∧
      ∀ name, call.autoName? c = some name →
        ∃ k, c.nameCount ≤ k ∧ k < (call.edit.leaves c).nameCount ∧ name = s!"X{k}" := by
  by_cases hcall : ∃ o, call = .op (.inst o) ∧ o.name = ""
  · obtain ⟨o, rfl, hname⟩ := hcall
    have hleaves : (CellCall.op (.inst o)).edit.leaves c = (CellObject.addTo o : Edit Instance).leaves c :=
      (leaves_commit o).symm
    rw [hleaves]
    simp only [CellCall.autoName?, hname, if_true]
    cases hrun : (CellObject.addTo o : Edit Instance) c with
    | ok o' c' =>
        obtain ⟨k, ⟨⟨hle, -⟩, -⟩, rfl, hcount, -⟩ := addUnnamed_ok h.regular.instances hname hrun
        rw [leaves_of_ok hrun]
        refine ⟨by omega, fun name hsome => ⟨k, hle, by omega, ?_⟩⟩
        exact (Option.some.inj hsome).symm
    | error x c' =>
        have hsame := (decides_inst h.regular o fun m hm => (hmasters m (Option.mem_toList.2 hm)).offers).of_error hrun
        rw [leaves_of_error hrun, hsame.1]
        exact ⟨Nat.le_refl _, nofun⟩
  · have hnamed : ∀ o, call = .op (.inst o) → o.name ≠ "" := fun o ho hname => hcall ⟨o, ho, hname⟩
    have hkeeps : (call.edit.leaves c).nameCount = c.nameCount :=
      Ends.leaves (keepsCount_call hnamed c rfl)
    refine ⟨hkeeps.ge, fun name hsome => ?_⟩
    unfold CellCall.autoName? at hsome
    split at hsome
    · rw [if_neg (hnamed _ rfl)] at hsome
      cases hsome
    · cases hsome

/-- The automatic names that were taken are those of different numbers below the count. -/
theorem History.below_count (h : History c names) :
    names.Nodup ∧ ∀ name ∈ names, ∃ k < c.nameCount, name = s!"X{k}" := by
  induction h with
  | empty h name mode => exact ⟨.nil, fun name hname => (List.not_mem_nil hname).elim⟩
  | withGrid h hloaded hg ih =>
      simp only [CellOf.withGrid] at hg
      split at hg
      · cases hg
        exact ih
      · cases hg
  | @call c names call h hcall hmasters ih =>
      obtain ⟨hnodup, hbelow⟩ := ih
      obtain ⟨hle, hname⟩ := h.reachable.autoName_between hmasters
      have hbefore : ∀ name ∈ names, ∃ k < (call.edit.leaves c).nameCount, name = s!"X{k}" := by
        intro name hmem
        obtain ⟨k, hk, hname⟩ := hbelow name hmem
        exact ⟨k, by omega, hname⟩
      cases hauto : call.autoName? c with
      | none => exact ⟨hnodup, hbefore⟩
      | some name =>
          obtain ⟨k, hfrom, hto, rfl⟩ := hname name hauto
          refine ⟨List.nodup_cons.2 ⟨fun hmem => ?_, hnodup⟩, List.forall_mem_cons.2 ⟨⟨k, hto, rfl⟩, hbefore⟩⟩
          obtain ⟨j, hj, heq⟩ := hbelow _ hmem
          have hsame := Edit.autoName_injective heq
          omega

/-- The search for an automatic name in a reachable cell finds the first number from the count on whose name is free, and
leaves the count just above it. So whether an instance without a name can be added depends on its master alone; it takes
its place next to all instances that are there; and no automatic name is taken twice in the life of the cell. -/
theorem Reachable.autoNames_fresh (h : Reachable c) :
    (∃ k, IsLeast {k | c.nameCount ≤ k ∧ ∀ i ∈ c.instances, i.name ≠ s!"X{k}"} k ∧
      nextName c = .ok s!"X{k}" { c with nameCount := k + 1 }) ∧
    (∀ o : Instance, o.name = "" → (∀ m, o.bound? = some m → Reachable m.cell) →
      ((∃ o' c', CellObject.addTo o c = .ok o' c') ↔ ∀ m, o.bound? = some m → c.Accepts m) ∧
      ∀ o' c', CellObject.addTo o c = .ok o' c' → nextName c = .ok o'.name { c with nameCount := c'.nameCount } ∧
        o' = { o with name := o'.name } ∧ c.instance? o'.name = none ∧
        ∀ i, i ∈ c'.instances ↔ i = o' ∨ i ∈ c.instances) ∧
    ∀ names, History c names → names.Nodup := by
  have hnamed := h.regular.instances
  refine ⟨nextName_eq hnamed, fun o hname hmasters => ⟨?_, fun o' c' hrun => ?_⟩, fun names hnames => hnames.below_count.1⟩
  · rw [(decides_inst h.regular o fun m hm => (hmasters m hm).offers).exists_ok_iff, Admits]
    exact and_iff_right fun hne => absurd hname hne
  · obtain ⟨k, hk, rfl, hcount, hmap⟩ := addUnnamed_ok hnamed hname hrun
    obtain ⟨j, hj, hnext⟩ := nextName_eq hnamed
    obtain rfl := hk.unique hj
    have hfree : ∀ i ∈ c.instances, i.name ≠ s!"X{k}" := hk.1.2
    have hnone : c.instance? s!"X{k}" = none := by
      refine instance?_eq_none_iff.2 fun e he heq => hfree e.2 (mem_instances_of_mem he) ?_
      rw [← hnamed.own e he, heq]
    refine ⟨hcount ▸ hnext, rfl, hnone, fun i => ?_⟩
    rw [instances, hmap]
    exact (hnamed.mem_withInstance rfl).trans (or_congr_right (and_iff_left_of_imp (hfree i)))

end CellOf

end Library

open scoped ExactPolygons

namespace CellOf

open Edit

/-- A placement of a cell that is defined elsewhere. -/
def guest (name : String) : Instance :=
  ⟨name, .ref ⟨"lib", "pad", "layout", .empty⟩, ⟨⟨0, 0⟩, .r0⟩, ⟨1, 1, 0, 0⟩⟩

/-- An instance with the first automatic name as its own, one that gets the next, which then takes the one after that, and
one more without a name. -/
def guestCalls : List CellCall :=
  [.op (.inst (guest "X0")), .op (.inst (guest "")), .op (.renameInstance "X1" "X2"), .op (.inst (guest ""))]

/-- The cell that the first `n` of these calls leave. -/
def guests (n : Nat) : Cell := run (guestCalls.take n) (.empty stackTech "guests" .poly90)

theorem history_guests : History (guests 4) ["X3", "X1"] := by
  have hstart : History (guests 0) [] := .empty loaded_stackTech "guests" .poly90
  have hgiven : History (guests 1) [] := hstart.call (.op (.inst (guest "X0"))) trivial nofun
  have hfound : History (guests 2) ["X1"] := hgiven.call (.op (.inst (guest ""))) trivial nofun
  have hmoved : History (guests 3) ["X1"] := hfound.call (.op (.renameInstance "X1" "X2")) trivial nofun
  exact hmoved.call (.op (.inst (guest ""))) trivial nofun

theorem autoNames_fresh_guests :
    History (guests 4) ["X3", "X1"] ∧ ["X3", "X1"].Nodup ∧
    (∃ k, 4 ≤ k ∧ nextName (guests 4) = .ok s!"X{k}" { guests 4 with nameCount := k + 1 }) := by
  obtain ⟨⟨k, ⟨⟨hle, -⟩, -⟩, hnext⟩, -, honce⟩ := history_guests.reachable.autoNames_fresh
  have hcount : (guests 4).nameCount = 4 := by decide +kernel
  exact ⟨history_guests, honce _ history_guests, k, hcount ▸ hle, hnext⟩

end CellOf

end MaskLayout
