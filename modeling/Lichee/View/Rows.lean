import Lichee.View.Items

/- The lists over any run of `df_insert_item` and `df_update_item`. An insertion that is
   accepted adds a row below those there are, an update leaves the rows alone, and so the
   items of a list stand in the order they were inserted in, each under the one before it
   (`item_rows`). -/
namespace Lichee.View
open Base Lichee.Core

/-! ## Updates -/

/-- What `df_update_item` stores in the item it finds. -/
def DfItemData.update (item : DfItemData) (data : ItemData) : DfItemData :=
  { item with
    status := data.status
    color := if data.status < 0 then .init else if data.status = 0 then .ok else .fail
    exdata := copyExdata item.exdata data }

/-- The first item of the list with the id is updated; `none` for "no such test case id". -/
def updateFirst (id : Int) (data : ItemData) : List DfItemData → Option (List DfItemData)
  | [] => none
  | item :: items =>
    if item.id = id then some (item.update data :: items)
    else (updateFirst id data items).map (item :: ·)

def DfWindow.update (w : DfWindow) (id : Int) (data : ItemData) : Option DfWindow :=
  (updateFirst id data w.tcList).map fun l => { w with tcList := l }

/-- `df_update_item`: `none` where it returns -1. -/
def dfUpdateItem (s : Screen) (id : Int) (data : ItemData) : Option Screen :=
  if data.category = CATEGORY_AUTO then
    (s.auto.update id data).map fun w => { s with auto := w }
  else if data.category = CATEGORY_MANUAL then
    (s.manual.update id data).map fun w => { s with manual := w }
  else none

/-! ## Runs -/

inductive Call
  | insert (id : Int) (data : ItemData)
  | update (id : Int) (data : ItemData)
  deriving Repr

/-- What a call returns, and the lists after it. -/
def Screen.call (s : Screen) : Call → Int × Screen
  | .insert id data => match dfInsertItem s id data with
    | some s' => (0, s')
    | none => (-1, s)
  | .update id data => match dfUpdateItem s id data with
    | some s' => (0, s')
    | none => (-1, s)

def Screen.calls (s : Screen) (cs : List Call) : Screen := cs.foldl (fun s c => (s.call c).2) s

/-- The insertions of a run that are accepted. -/
def Screen.accepted (s : Screen) : List Call → List (Int × ItemData)
  | [] => []
  | .insert id data :: cs => match dfInsertItem s id data with
    | some s' => (id, data) :: s'.accepted cs
    | none => s.accepted cs
  | .update id data :: cs => (s.call (.update id data)).2.accepted cs

/-- What an update leaves as it is. -/
def DfItemData.key (item : DfItemData) : Int × List UInt8 × List UInt8 × Int :=
  (item.id, item.name, item.displayName, item.category)

/-- The items of a window are those of the insertions `ins`, in that order, in consecutive rows
under the menu and inside the window. -/
structure DfWindow.Rows (w : DfWindow) (ins : List (Int × ItemData)) : Prop where
  order : w.tcList.reverse.map (·.key) =
    ins.map fun p => (p.1, strncpy p.2.name 32, strncpy p.2.displayName 64, p.2.category)
  rows : w.tcList.reverse.map (·.y) =
    (List.range w.tcList.length).map fun k : Nat => MENU_HEIGHT + ITEM_HEIGHT * k
  heights : ∀ item ∈ w.tcList, item.height = ITEM_HEIGHT
  inside : ∀ item ∈ w.tcList, item.y + item.height ≤ w.height

/-- The insertions a list takes. -/
def ofCategory (c : Int) (ins : List (Int × ItemData)) : List (Int × ItemData) :=
  ins.filter fun p => decide (p.2.category = c)

def Screen.Rows (s : Screen) (ins : List (Int × ItemData)) : Prop :=
  s.auto.Rows (ofCategory CATEGORY_AUTO ins) ∧ s.manual.Rows (ofCategory CATEGORY_MANUAL ins)

/-- Two items that differ in no more than the status, the colours and the text. -/
def DfItemData.Same (a b : DfItemData) : Prop := a.key = b.key ∧ a.y = b.y ∧ a.height = b.height

/-- Of a list one item with the id, the first, has changed, and of it no more than that. -/
def UpdatesOne (id : Int) (l l' : List DfItemData) : Prop :=
  ∃ pre item item' post, l = pre ++ item :: post ∧ item.id = id ∧ (∀ i ∈ pre, i.id ≠ id) ∧
    l' = pre ++ item' :: post ∧ item'.Same item

/-! ## One insertion -/

theorem Rows.empty (height : Int) : DfWindow.Rows ⟨height, []⟩ [] where
  order := rfl
  rows := rfl
  heights := by
    intro item h
    cases h
  inside := by
    intro item h
    cases h

theorem sum_heights {l : List DfItemData} (h : ∀ item ∈ l, item.height = ITEM_HEIGHT) :
    (l.map (·.height)).sum = ITEM_HEIGHT * l.length := by
  induction l with
  | nil => rfl
  | cons item l ih =>
    rw [List.map_cons, List.sum_cons, h item List.mem_cons_self,
      ih fun i hi => h i (List.mem_cons_of_mem _ hi), List.length_cons]
    push_cast
    ring

/-- An accepted insertion is the next row. -/
theorem DfWindow.Rows.insert {w w' : DfWindow} {ins : List (Int × ItemData)} {id : Int}
    {data : ItemData} (hw : w.Rows ins) (hins : w.insert id data = some w') :
    w'.Rows (ins ++ [(id, data)]) ∧ w'.height = w.height := by
  have hsum := sum_heights hw.heights
  rw [DfWindow.insert] at hins
  split at hins
  · cases hins
  next hroom =>
  cases hins
  refine ⟨⟨?_, ?_, ?_, ?_⟩, rfl⟩
  · rw [List.reverse_cons, List.map_append, hw.order, List.map_append]
    rfl
  · rw [List.reverse_cons, List.map_append, hw.rows, List.length_cons, List.range_succ,
      List.map_append, hsum]
    rfl
  · intro item hitem
    rcases List.mem_cons.mp hitem with rfl | hitem
    · rfl
    · exact hw.heights item hitem
  · intro item hitem
    rcases List.mem_cons.mp hitem with rfl | hitem
    · exact Int.not_lt.mp hroom
    · exact hw.inside item hitem

/-! ## One update -/

theorem updateFirst_some {id : Int} {data : ItemData} : ∀ {l l' : List DfItemData},
    updateFirst id data l = some l' → UpdatesOne id l l'
  | [], _, h => by cases h
  | item :: items, l', h => by
    rw [updateFirst] at h
    split at h
    · next hid =>
      cases h
      exact ⟨[], item, item.update data, items, rfl, hid, by simp, rfl, rfl, rfl, rfl⟩
    · next hid =>
      obtain ⟨m, hm, rfl⟩ := Option.map_eq_some_iff.mp h
      obtain ⟨pre, i, i', post, rfl, hi, hpre, rfl, hsame⟩ := updateFirst_some hm
      refine ⟨item :: pre, i, i', post, rfl, hi, ?_, rfl, hsame⟩
      intro j hj
      rcases List.mem_cons.mp hj with rfl | hj
      · exact hid
      · exact hpre j hj

section Update
variable {id : Int} {l l' : List DfItemData}

/-- What an update keeps of each item it keeps of the list. -/
theorem UpdatesOne.map {β : Type} (h : UpdatesOne id l l') (f : DfItemData → β)
    (hf : ∀ a b : DfItemData, a.Same b → f a = f b) : l'.map f = l.map f := by
  obtain ⟨pre, item, item', post, rfl, -, -, rfl, hsame⟩ := h
  rw [List.map_append, List.map_append, List.map_cons, List.map_cons, hf item' item hsame]

theorem UpdatesOne.forall (h : UpdatesOne id l l') {P : DfItemData → Prop}
    (hP : ∀ a b : DfItemData, a.Same b → P b → P a) (hl : ∀ item ∈ l, P item) :
    ∀ item ∈ l', P item := by
  obtain ⟨pre, it, it', post, rfl, -, -, rfl, hsame⟩ := h
  intro item hitem
  rcases List.mem_append.mp hitem with hpre | hpost
  · exact hl item (List.mem_append_left _ hpre)
  · rcases List.mem_cons.mp hpost with rfl | hpost
    · exact hP item it hsame (hl it (List.mem_append_right _ List.mem_cons_self))
    · exact hl item (List.mem_append_right _ (List.mem_cons_of_mem _ hpost))

/-- The rows are those of before. -/
theorem DfWindow.Rows.update {w : DfWindow} {ins : List (Int × ItemData)} (hw : w.Rows ins)
    (hupd : UpdatesOne id w.tcList l) : DfWindow.Rows { w with tcList := l } ins where
  order := by
    rw [← hw.order, List.map_reverse, List.map_reverse, hupd.map (·.key) fun _ _ h => h.1]
  rows := by
    have hlen : l.length = w.tcList.length := by
      rw [← List.length_map (fun _ => ()), hupd.map (fun _ => ()) fun _ _ _ => rfl,
        List.length_map]
    rw [hlen, ← hw.rows, List.map_reverse, List.map_reverse, hupd.map (·.y) fun _ _ h => h.2.1]
  heights := hupd.forall (fun _ _ h hb => h.2.2.trans hb) hw.heights
  inside := by
    refine hupd.forall (fun a b h hb => ?_) hw.inside
    rw [h.2.1, h.2.2]
    exact hb

end Update

/-! ## Runs -/

/-- An insertion, by the list its category selects. -/
theorem dfInsertItem_some {s s' : Screen} {id : Int} {data : ItemData}
    (h : dfInsertItem s id data = some s') :
    (data.category = CATEGORY_AUTO ∧ ∃ w, s.auto.insert id data = some w ∧
      s' = { s with auto := w }) ∨
    (data.category = CATEGORY_MANUAL ∧ ∃ w, s.manual.insert id data = some w ∧
      s' = { s with manual := w }) := by
  rw [dfInsertItem] at h
  split at h
  · next hc =>
    obtain ⟨w, hw, rfl⟩ := Option.map_eq_some_iff.mp h
    exact .inl ⟨hc, w, hw, rfl⟩
  split at h
  · next hc =>
    obtain ⟨w, hw, rfl⟩ := Option.map_eq_some_iff.mp h
    exact .inr ⟨hc, w, hw, rfl⟩
  · cases h

/-- The list that an update of a category searches, and the one it does not. -/
def Screen.Updated (s : Screen) (id category : Int) (s' : Screen) : Prop :=
  (category = CATEGORY_AUTO ∧ ∃ l, UpdatesOne id s.auto.tcList l ∧
    s' = { s with auto := { s.auto with tcList := l } }) ∨
  (category = CATEGORY_MANUAL ∧ ∃ l, UpdatesOne id s.manual.tcList l ∧
    s' = { s with manual := { s.manual with tcList := l } })

theorem dfUpdateItem_some {s s' : Screen} {id : Int} {data : ItemData}
    (h : dfUpdateItem s id data = some s') : s.Updated id data.category s' := by
  rw [dfUpdateItem] at h
  split at h
  · next hc =>
    obtain ⟨w, hw, rfl⟩ := Option.map_eq_some_iff.mp h
    obtain ⟨l, hl, rfl⟩ := Option.map_eq_some_iff.mp hw
    exact .inl ⟨hc, l, updateFirst_some hl, rfl⟩
  split at h
  · next hc =>
    obtain ⟨w, hw, rfl⟩ := Option.map_eq_some_iff.mp h
    obtain ⟨l, hl, rfl⟩ := Option.map_eq_some_iff.mp hw
    exact .inr ⟨hc, l, updateFirst_some hl, rfl⟩
  · cases h

theorem ofCategory_snoc_self {c : Int} {data : ItemData} (h : data.category = c)
    (ins : List (Int × ItemData)) (id : Int) :
    ofCategory c (ins ++ [(id, data)]) = ofCategory c ins ++ [(id, data)] := by
  rw [ofCategory, List.filter_append, List.filter_cons_of_pos (by simpa using h)]
  rfl

theorem ofCategory_snoc_ne {c : Int} {data : ItemData} (h : data.category ≠ c)
    (ins : List (Int × ItemData)) (id : Int) :
    ofCategory c (ins ++ [(id, data)]) = ofCategory c ins := by
  rw [ofCategory, List.filter_append, List.filter_cons_of_neg (by simpa using h)]
  exact List.append_nil _

/-- An accepted insertion keeps the rows, of both lists. -/
theorem Screen.Rows.insert {s s' : Screen} {ins : List (Int × ItemData)} {id : Int}
    {data : ItemData} (hs : s.Rows ins) (h : dfInsertItem s id data = some s') :
    s'.Rows (ins ++ [(id, data)]) ∧ s'.auto.height = s.auto.height ∧
      s'.manual.height = s.manual.height := by
  rcases dfInsertItem_some h with ⟨hc, w, hw, rfl⟩ | ⟨hc, w, hw, rfl⟩
  · obtain ⟨hrows, hheight⟩ := hs.1.insert hw
    refine ⟨⟨?_, ?_⟩, hheight, rfl⟩
    · rw [ofCategory_snoc_self hc]
      exact hrows
    · rw [ofCategory_snoc_ne (by rw [hc]; decide)]
      exact hs.2
  · obtain ⟨hrows, hheight⟩ := hs.2.insert hw
    refine ⟨⟨?_, ?_⟩, rfl, hheight⟩
    · rw [ofCategory_snoc_ne (by rw [hc]; decide)]
      exact hs.1
    · rw [ofCategory_snoc_self hc]
      exact hrows

theorem Screen.Rows.update {s s' : Screen} {ins : List (Int × ItemData)} {id category : Int}
    (hs : s.Rows ins) (h : s.Updated id category s') :
    s'.Rows ins ∧ s'.auto.height = s.auto.height ∧ s'.manual.height = s.manual.height := by
  rcases h with ⟨-, l, hl, rfl⟩ | ⟨-, l, hl, rfl⟩
  · exact ⟨⟨hs.1.update hl, hs.2⟩, rfl, rfl⟩
  · exact ⟨⟨hs.1, hs.2.update hl⟩, rfl, rfl⟩

/-- A run goes on from the rows there are. -/
theorem Screen.Rows.calls (cs : List Call) : ∀ {s : Screen} {ins : List (Int × ItemData)},
    s.Rows ins → (s.calls cs).Rows (ins ++ s.accepted cs) ∧
      (s.calls cs).auto.height = s.auto.height ∧ (s.calls cs).manual.height = s.manual.height := by
  induction cs with
  | nil =>
    intro s ins hs
    rw [Screen.accepted, List.append_nil]
    exact ⟨hs, rfl, rfl⟩
  | cons c cs ih =>
    intro s ins hs
    rw [Screen.calls, List.foldl_cons]
    cases c with
    | insert id data =>
      rw [Screen.accepted, Screen.call]
      cases hins : dfInsertItem s id data with
      | none => exact ih hs
      | some s' =>
        obtain ⟨hs', ha, hm⟩ := hs.insert hins
        obtain ⟨hrows, ha', hm'⟩ := ih hs'
        refine ⟨?_, ha'.trans ha, hm'.trans hm⟩
        rw [List.append_cons]
        exact hrows
    | update id data =>
      rw [Screen.accepted, Screen.call]
      cases hupd : dfUpdateItem s id data with
      | none => exact ih hs
      | some s' =>
        obtain ⟨hs', ha, hm⟩ := hs.update (dfUpdateItem_some hupd)
        obtain ⟨hrows, ha', hm'⟩ := ih hs'
        exact ⟨hrows, ha'.trans ha, hm'.trans hm⟩

/-- **The item lists.** After any run of insertions and updates on empty lists, whatever the
heights of the windows, each list holds what was accepted for it, in consecutive rows inside
its window; a call that returns -1 has changed nothing; and an update has changed one item of
the list it searched, or nothing. -/
theorem item_rows (autoHeight manualHeight : Int) (cs : List Call) :
    let s : Screen := ⟨⟨autoHeight, []⟩, ⟨manualHeight, []⟩⟩
    (s.calls cs).Rows (s.accepted cs) ∧ (s.calls cs).auto.height = autoHeight ∧
      (s.calls cs).manual.height = manualHeight ∧
      (∀ c, ((s.calls cs).call c).1 = -1 → ((s.calls cs).call c).2 = s.calls cs) ∧
      ∀ id data, ((s.calls cs).call (.update id data)).2 = s.calls cs ∨
        (s.calls cs).Updated id data.category ((s.calls cs).call (.update id data)).2 := by
  intro s
  have hstart : s.Rows [] := ⟨Rows.empty autoHeight, Rows.empty manualHeight⟩
  obtain ⟨hrows, ha, hm⟩ := Screen.Rows.calls cs hstart
  refine ⟨hrows, ha, hm, fun c hc => ?_, fun id data => ?_⟩
  · cases c with
    | insert id data =>
      rw [Screen.call] at hc ⊢
      cases hins : dfInsertItem (s.calls cs) id data with
      | none => rfl
      | some s' =>
        rw [hins] at hc
        cases hc
    | update id data =>
      rw [Screen.call] at hc ⊢
      cases hupd : dfUpdateItem (s.calls cs) id data with
      | none => rfl
      | some s' =>
        rw [hupd] at hc
        cases hc
  · rw [Screen.call]
    cases hupd : dfUpdateItem (s.calls cs) id data with
    | none => exact .inl rfl
    | some s' => exact .inr (dfUpdateItem_some hupd)

end Lichee.View
