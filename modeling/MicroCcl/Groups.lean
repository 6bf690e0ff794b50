import Mathlib.Data.List.Induction
import Mathlib.Data.List.Nodup

namespace Groups

variable {K R : Type*} [DecidableEq K] {key : R → K}

/-- `groups[k].append(r)`. -/
def appendTo (k : K) (r : R) : List (K × List R) → List (K × List R)
  | [] => [(k, [r])]
  | g :: gs => if g.1 = k then (k, g.2 ++ [r]) :: gs else g :: appendTo k r gs

def groupBy (key : R → K) (rows : List R) : List (K × List R) :=
  rows.foldl (fun gs r => appendTo (key r) r gs) []

/-- A row of a group that there is. -/
theorem appendTo_mem (r : R) (f : K → List R) {k : K} {ks : List K} (hk : k ∈ ks)
    (hnd : ks.Nodup) : appendTo k r (ks.map fun k' => (k', f k')) =
      ks.map fun k' => (k', if k' = k then f k' ++ [r] else f k') := by
  induction ks with
  | nil => cases hk
  | cons k' ks ih =>
    obtain ⟨hnot, hnd⟩ := List.nodup_cons.mp hnd
    rw [List.map_cons, List.map_cons, appendTo]
    by_cases hkk : k' = k
    · rw [if_pos hkk, if_pos hkk]
      have hrest : ∀ k'' ∈ ks, k'' ≠ k := by
        rintro k'' hk'' rfl
        exact hnot (hkk ▸ hk'')
      have hsame : ks.map (fun k' => (k', if k' = k then f k' ++ [r] else f k')) =
          ks.map fun k' => (k', f k') :=
        List.map_congr_left fun k'' hk'' => by rw [if_neg (hrest k'' hk'')]
      rw [hsame, hkk]
    · rw [if_neg hkk, if_neg hkk, ih ((List.mem_cons.mp hk).resolve_left (Ne.symm hkk)) hnd]

/-- The first row of a group. -/
theorem appendTo_not_mem (r : R) (f : K → List R) {k : K} {ks : List K} (hk : k ∉ ks) :
    appendTo k r (ks.map fun k' => (k', f k')) = ks.map (fun k' => (k', f k')) ++ [(k, [r])] := by
  induction ks with
  | nil => rfl
  | cons k' ks ih =>
    obtain ⟨hne, hk⟩ := not_or.mp (mt List.mem_cons.mpr hk)
    rw [List.map_cons, appendTo, if_neg (Ne.symm hne), ih hk, List.cons_append]

theorem eraseDups_snoc (ks : List K) (k : K) :
    (ks ++ [k]).eraseDups = if k ∈ ks then ks.eraseDups else ks.eraseDups ++ [k] := by
  rw [List.eraseDups_append, List.cons_removeAll]
  by_cases hk : k ∈ ks <;> simp [hk, List.eraseDups_cons]

theorem nodup_eraseDups (ks : List K) : ks.eraseDups.Nodup := by
  induction ks using List.reverseRecOn with
  | nil => exact .nil
  | append_singleton ks k ih =>
    rw [eraseDups_snoc]
    split_ifs with hk
    · exact ih
    · rw [← List.concat_eq_append]
      exact ih.concat (mt List.mem_eraseDups.mp hk)

/-- The groups are in the order of their first rows, and keep the order of the rows. -/
theorem groupBy_eq (key : R → K) (rows : List R) : groupBy key rows =
    (rows.map key).eraseDups.map fun k => (k, rows.filter fun r => key r = k) := by
  induction rows using List.reverseRecOn with
  | nil => rfl
  | append_singleton rows r ih =>
    rw [groupBy, List.foldl_append, ← groupBy, List.foldl_cons, List.foldl_nil, ih, List.map_append,
      List.map_singleton, eraseDups_snoc]
    split_ifs with hk
    · rw [appendTo_mem r _ (List.mem_eraseDups.mpr hk) (nodup_eraseDups _)]
      refine List.map_congr_left fun k' _ => ?_
      rw [List.filter_append, List.filter_singleton]
      by_cases hkk : k' = key r <;> simp [hkk, eq_comm]
    · have hnone : rows.filter (fun r' => key r' = key r) = [] := by
        refine List.filter_eq_nil_iff.mpr fun r' hr' => ?_
        have hne : key r' ≠ key r := fun h => hk (h ▸ List.mem_map_of_mem hr')
        simp [hne]
      have hothers : ∀ k' ∈ (rows.map key).eraseDups, k' ≠ key r := by
        rintro k' hk' rfl
        exact hk (List.mem_eraseDups.mp hk')
      rw [appendTo_not_mem r _ (mt List.mem_eraseDups.mp hk), List.map_append, List.map_singleton,
        List.filter_append, hnone]
      congr 1
      · refine List.map_congr_left fun k' hk' => ?_
        simp [(hothers k' hk').symm]
      · simp

theorem eraseDups_of_nodup {ks : List K} (h : ks.Nodup) : ks.eraseDups = ks := by
  induction ks using List.reverseRecOn with
  | nil => rfl
  | append_singleton ks k ih =>
    obtain ⟨hks, -, hdisjoint⟩ := List.nodup_append.mp h
    rw [eraseDups_snoc, if_neg fun hk => hdisjoint k hk k List.mem_cons_self rfl, ih hks]

theorem groupBy_append {rows rows' : List R} (h : ∀ r ∈ rows, ∀ r' ∈ rows', key r ≠ key r') :
    groupBy key (rows ++ rows') = groupBy key rows ++ groupBy key rows' := by
  have hothers : (rows'.map key).removeAll (rows.map key) = rows'.map key := by
    refine List.filter_eq_self.mpr fun k hk => ?_
    obtain ⟨r', hr', rfl⟩ := List.mem_map.mp hk
    have hnot : key r' ∉ rows.map key := by
      intro hmem
      obtain ⟨r, hr, he⟩ := List.mem_map.mp hmem
      exact h r hr r' hr' he
    simp [hnot]
  rw [groupBy_eq, groupBy_eq, groupBy_eq, List.map_append, List.eraseDups_append, hothers,
    List.map_append]
  congr 1
  · refine List.map_congr_left fun k hk => ?_
    obtain ⟨r, hr, rfl⟩ := List.mem_map.mp (List.mem_eraseDups.mp hk)
    have hnone : rows'.filter (fun r' => key r' = key r) = [] :=
      List.filter_eq_nil_iff.mpr fun r' hr' => by simpa using (h r hr r' hr').symm
    rw [List.filter_append, hnone, List.append_nil]
  · refine List.map_congr_left fun k hk => ?_
    obtain ⟨r', hr', rfl⟩ := List.mem_map.mp (List.mem_eraseDups.mp hk)
    have hnone : rows.filter (fun r => key r = key r') = [] :=
      List.filter_eq_nil_iff.mpr fun r hr => by simpa using h r hr r' hr'
    rw [List.filter_append, hnone, List.nil_append]

/-- One row for every `x` and `y`, those of one `x` next to each other. -/
theorem groupBy_grid {X Y : Type*} {row : X → Y → R} {k : Y → K} (hk : Function.Injective k)
    (hkey : ∀ x y, key (row x y) = k y) {ys : List Y} (hys : ys.Nodup) {xs : List X}
    (hxs : xs ≠ []) : groupBy key (xs.flatMap fun x => ys.map (row x)) =
      ys.map fun y => (k y, xs.map fun x => row x y) := by
  have hkeys : (xs.flatMap fun x => ys.map (row x)).map key = xs.flatMap fun _ => ys.map k := by
    simp only [List.map_flatMap, List.map_map, Function.comp_def, hkey]
  have hdups : (xs.flatMap fun _ => ys.map k).eraseDups = ys.map k := by
    obtain ⟨x, xs, rfl⟩ := List.exists_cons_of_ne_nil hxs
    have hnone : (xs.flatMap fun _ => ys.map k).removeAll (ys.map k) = [] := by
      refine List.filter_eq_nil_iff.mpr fun c hc => ?_
      obtain ⟨x, -, hc⟩ := List.mem_flatMap.mp hc
      rw [List.elem_eq_true_of_mem hc]
      decide
    rw [List.flatMap_cons, List.eraseDups_append, hnone, List.eraseDups_nil, List.append_nil,
      eraseDups_of_nodup (hys.map hk)]
  rw [groupBy_eq, hkeys, hdups, List.map_map]
  refine List.map_congr_left fun y hy => ?_
  have hone : ∀ x, (ys.map (row x)).filter (fun r => key r = k y) = [row x y] := by
    classical
    intro x
    rw [List.filter_map]
    simp only [Function.comp_def, hkey, hk.eq_iff]
    rw [List.filter_eq, hys.count, if_pos hy, List.replicate_one, List.map_singleton]
  rw [Function.comp_apply, List.filter_flatMap]
  simp only [hone]
  rw [← List.map_eq_flatMap]

end Groups
