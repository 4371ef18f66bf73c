import N2P.Capture

/-!
# Windows and runs of the converter

* `windowSlice_eq` — the packets of a window that are kept, in unbounded integers.
* `run_rows` — a run stores the rows its windows would store without slicing, cut once.
* `run_wrapped` — it stores nothing when `--drop` and `--count` overflow.
-/

namespace N2P.Capture

variable {Block : Type}

/-! ## One window -/

/-- The rows a window would store without slicing, `g` packets in. -/
def windowRows (T : Nanotins Block) (i : Interfaces) (g : Nat) (refs : List Block) :
    List PacketRow :=
  (classify T i refs).2.mapIdx fun k packet =>
    packetRow T (classify T i refs).1 (UInt64.ofNat (g + k)) packet

/-- The rows from packet `a` up to packet `b`, of rows that start with packet `g`. -/
def cut (a b g : Nat) (rows : List PacketRow) : List PacketRow := (rows.take (b - g)).drop (a - g)

/-- Where the slice ends. -/
def Args.stop (args : Args) : Nat :=
  if args.take = UINT64_MAX then 2 ^ 64 else args.drop.toNat + args.take.toNat

section Window

variable {T : Nanotins Block} {args : Args} {st : Converter} {refs : List Block}

theorem cut_append {a b g : Nat} {xs ys : List PacketRow} :
    cut a b g (xs ++ ys) = cut a b g xs ++ cut a b (g + xs.length) ys := by
  unfold cut
  rw [List.take_append, List.drop_append, List.length_take, Nat.sub_sub, Nat.sub_sub]
  by_cases h : b - g ≤ xs.length
  · have hnone : b - (g + xs.length) = 0 := by omega
    rw [hnone]
    simp
  · rw [Nat.min_eq_right (by omega)]

theorem cut_past {a b g : Nat} (h : b ≤ g) (rows : List PacketRow) : cut a b g rows = [] := by
  unfold cut
  rw [Nat.sub_eq_zero_of_le h]
  simp

theorem toNat_stdMin (a b : UInt64) : (stdMin a b).toNat = min a.toNat b.toNat := by
  unfold stdMin
  split
  · rename_i h
    rw [Nat.min_eq_right (Nat.le_of_lt (UInt64.lt_iff_toNat_lt.mp h))]
  · rename_i h
    rw [Nat.min_eq_left (Nat.le_of_not_lt fun hlt => h (UInt64.lt_iff_toNat_lt.mpr hlt))]

/-- How far a bound lies behind the packets seen, within a window of `n`. -/
theorem toNat_bound {bound g0 : UInt64} {n : Nat} (hn : n < 2 ^ 64) :
    (if bound > g0 then (stdMin (bound - g0) (UInt64.ofNat n)).toNat else 0) =
      min (bound.toNat - g0.toNat) n := by
  split
  · rename_i h
    have hlt := UInt64.lt_iff_toNat_lt.mp h
    rw [toNat_stdMin, UInt64.toNat_sub_of_le _ _ (UInt64.le_of_lt h),
      UInt64.toNat_ofNat_of_lt' hn]
  · rename_i h
    have hle : bound.toNat ≤ g0.toNat :=
      Nat.le_of_not_lt fun hlt => h (UInt64.lt_iff_toNat_lt.mpr hlt)
    rw [Nat.sub_eq_zero_of_le hle, Nat.zero_min]

/-- A slice can be taken before the rows are made. -/
theorem mapIdx_slice {α : Type} (f : Nat → α → PacketRow) (xs : List α) (lo hi : Nat) :
    ((xs.drop lo).take (hi - lo)).mapIdx (fun k x => f (lo + k) x) =
      ((xs.mapIdx f).take hi).drop lo := by
  apply List.ext_getElem?
  intro j
  rw [List.getElem?_mapIdx, List.getElem?_drop, List.getElem?_take, List.getElem?_take,
    List.getElem?_drop, List.getElem?_mapIdx]
  by_cases h : lo + j < hi
  · rw [if_pos h, if_pos (by omega)]
  · rw [if_neg h, if_neg (by omega)]
    rfl

/-- Bounds past the end of the rows change nothing. -/
theorem slice_min (rows : List PacketRow) (lo hi : Nat) :
    (rows.take (min hi rows.length)).drop (min lo rows.length) = (rows.take hi).drop lo := by
  have htake : rows.take (min hi rows.length) = rows.take hi := by
    rw [← List.take_take, List.take_length]
  rw [htake]
  by_cases h : lo ≤ rows.length
  · rw [Nat.min_eq_left h]
  · rw [Nat.min_eq_right (by omega), List.drop_eq_nil_of_le (by rw [List.length_take]; omega),
      List.drop_eq_nil_of_le (by rw [List.length_take]; omega)]

/-- **A window** extends the tables, counts its packets, and stores a slice of its rows. -/
theorem processWindow_eq (T : Nanotins Block) (args : Args) (st : Converter)
    (refs : List Block) :
    let c := classify T st.interfaces refs
    let slice := windowSlice args st.globalPid c.2.length
    (processWindow T args st refs).1.interfaces = c.1 ∧
      (processWindow T args st refs).1.globalPid = st.globalPid + UInt64.ofNat c.2.length ∧
      (processWindow T args st refs).2 =
        ((windowRows T st.interfaces st.globalPid.toNat refs).take slice.2).drop slice.1 := by
  intro c slice
  have hrows : ((c.2.drop slice.1).take (slice.2 - slice.1)).mapIdx (fun k packet =>
        packetRow T c.1 (st.globalPid + UInt64.ofNat (slice.1 + k)) packet) =
      ((windowRows T st.interfaces st.globalPid.toNat refs).take slice.2).drop slice.1 := by
    have hpid : ∀ k, st.globalPid + UInt64.ofNat k = UInt64.ofNat (st.globalPid.toNat + k) := by
      intro k
      rw [UInt64.ofNat_add, UInt64.ofNat_toNat]
    unfold windowRows
    rw [← mapIdx_slice]
    simp only [hpid]
    rfl
  rw [← hrows]
  have hrun : processWindow T args st refs =
      if c.2.length = 0 then ({ st with interfaces := c.1 }, [])
      else if slice.2 - slice.1 = 0 then
        ({ st with interfaces := c.1, globalPid := st.globalPid + UInt64.ofNat c.2.length }, [])
      else
        ({ interfaces := c.1, globalPid := st.globalPid + UInt64.ofNat c.2.length,
           emitted := st.emitted + UInt64.ofNat (slice.2 - slice.1) },
          ((c.2.drop slice.1).take (slice.2 - slice.1)).mapIdx fun k packet =>
            packetRow T c.1 (st.globalPid + UInt64.ofNat (slice.1 + k)) packet) := rfl
  rw [hrun]
  by_cases hnone : c.2.length = 0
  · have hnil : c.2 = [] := List.length_eq_zero_iff.mp hnone
    rw [if_pos hnone, hnil]
    exact ⟨rfl, by simp, by simp⟩
  · rw [if_neg hnone]
    by_cases hn : slice.2 - slice.1 = 0
    · rw [if_pos hn, hn]
      exact ⟨rfl, rfl, by simp⟩
    · rw [if_neg hn]
      exact ⟨rfl, rfl, rfl⟩

/-- The slice of a window in unbounded integers, but for the sum of the two arguments. -/
theorem windowSlice_eq (args : Args) (g0 : UInt64) {n : Nat} (hn : n < 2 ^ 64) :
    windowSlice args g0 n =
      (min (args.drop.toNat - g0.toNat) n,
        max (min (args.drop.toNat - g0.toNat) n)
          (if args.take = UINT64_MAX then n
            else min ((args.drop + args.take).toNat - g0.toNat) n)) := by
  have hmax : ∀ lo hi : Nat, (if hi < lo then lo else hi) = max lo hi := by
    intro lo hi
    split <;> omega
  unfold windowSlice
  dsimp only
  rw [toNat_bound hn, toNat_bound hn, ite_not, hmax]

/-- A window's slice, when the end is representable. -/
theorem windowSlice_rows (args : Args) (g0 : UInt64) (rows : List PacketRow)
    (hfits : g0.toNat + rows.length < 2 ^ 64)
    (hstop : args.take = UINT64_MAX ∨ args.drop.toNat + args.take.toNat < 2 ^ 64) :
    (rows.take (windowSlice args g0 rows.length).2).drop (windowSlice args g0 rows.length).1 =
      cut args.drop.toNat args.stop g0.toNat rows := by
  have hhi : (if args.take = UINT64_MAX then rows.length
        else min ((args.drop + args.take).toNat - g0.toNat) rows.length) =
      min (args.stop - g0.toNat) rows.length := by
    unfold Args.stop
    by_cases htake : args.take = UINT64_MAX
    · rw [if_pos htake, if_pos htake, Nat.min_eq_right (by omega)]
    · have hsum : (args.drop + args.take).toNat = args.drop.toNat + args.take.toNat := by
        rw [UInt64.toNat_add, Nat.mod_eq_of_lt (hstop.resolve_left htake)]
      rw [if_neg htake, if_neg htake, hsum]
  rw [windowSlice_eq args g0 (by omega), hhi]
  dsimp only
  unfold cut
  rcases Nat.le_total (min (args.drop.toNat - g0.toNat) rows.length)
    (min (args.stop - g0.toNat) rows.length) with hle | hle
  · rw [Nat.max_eq_right hle]
    exact slice_min rows _ _
  · rw [Nat.max_eq_left hle, List.drop_eq_nil_of_le (by rw [List.length_take]; omega),
      List.drop_eq_nil_of_le (by rw [List.length_take]; omega)]

/-- When the end wraps, no window stores a row. -/
theorem windowSlice_wrapped (args : Args) (g0 : UInt64) (rows : List PacketRow)
    (hlen : rows.length < 2 ^ 64) (htake : args.take ≠ UINT64_MAX)
    (hwrap : 2 ^ 64 ≤ args.drop.toNat + args.take.toNat) :
    (rows.take (windowSlice args g0 rows.length).2).drop (windowSlice args g0 rows.length).1 =
      [] := by
  have htakeLt := args.take.toNat_lt
  have hdropLt := args.drop.toNat_lt
  have hsum : (args.drop + args.take).toNat < args.drop.toNat := by
    rw [UInt64.toNat_add, Nat.mod_eq_sub_mod hwrap, Nat.mod_eq_of_lt (by omega)]
    omega
  rw [windowSlice_eq args g0 hlen, if_neg htake]
  dsimp only
  rw [Nat.max_eq_left (by omega)]
  apply List.drop_eq_nil_of_le
  rw [List.length_take]
  omega

end Window

/-! ## Runs -/

/-- The rows the windows would store without slicing. -/
def windowedRows (T : Nanotins Block) : Interfaces → Nat → List (List Block) → List PacketRow
  | _, _, [] => []
  | i, g, refs :: windows =>
    windowRows T i g refs ++
      windowedRows T (classify T i refs).1 (g + (classify T i refs).2.length) windows

section Runs

variable {T : Nanotins Block} {args : Args}

theorem length_windowRows (i : Interfaces) (g : Nat) (refs : List Block) :
    (windowRows T i g refs).length = (classify T i refs).2.length := by
  simp [windowRows]

theorem length_windowedRows (i : Interfaces) (g : Nat) (windows : List (List Block)) :
    (windowedRows T i g windows).length = (classify T i windows.flatten).2.length := by
  induction windows generalizing i g with
  | nil => rfl
  | cons refs rest ih =>
    rw [windowedRows, List.length_append, length_windowRows, ih, List.flatten_cons,
      classify_append, List.length_append]

/-- What a window does to the state, when the packets can be counted. -/
theorem processWindow_step (args : Args) (st : Converter) (refs : List Block)
    (rest : List (List Block)) (hfits : st.globalPid.toNat +
      (classify T st.interfaces (refs :: rest).flatten).2.length < 2 ^ 64) :
    (processWindow T args st refs).1.interfaces = (classify T st.interfaces refs).1 ∧
      (processWindow T args st refs).1.globalPid.toNat =
        st.globalPid.toNat + (classify T st.interfaces refs).2.length ∧
      st.globalPid.toNat + (classify T st.interfaces refs).2.length +
        (classify T (classify T st.interfaces refs).1 rest.flatten).2.length < 2 ^ 64 := by
  rw [List.flatten_cons, classify_append, List.length_append] at hfits
  obtain ⟨hinterfaces, hpid, _⟩ := processWindow_eq T args st refs
  have hlt : (classify T st.interfaces refs).2.length < 2 ^ 64 := by omega
  refine ⟨hinterfaces, ?_, by omega⟩
  rw [hpid, UInt64.toNat_add, UInt64.toNat_ofNat_of_lt' hlt, Nat.mod_eq_of_lt (by omega)]

/-- **A run stores one slice** of the rows its windows would store. -/
theorem run_rows (st : Converter) (windows : List (List Block))
    (hfits : st.globalPid.toNat + (classify T st.interfaces windows.flatten).2.length < 2 ^ 64)
    (hstop : args.take = UINT64_MAX ∨ args.drop.toNat + args.take.toNat < 2 ^ 64) :
    (run T args st windows).2 =
      cut args.drop.toNat args.stop st.globalPid.toNat
        (windowedRows T st.interfaces st.globalPid.toNat windows) := by
  induction windows generalizing st with
  | nil => simp [run, windowedRows, cut]
  | cons refs rest ih =>
    obtain ⟨hinterfaces, hpid, hrest⟩ := processWindow_step args st refs rest hfits
    obtain ⟨_, _, hrows⟩ := processWindow_eq T args st refs
    have hlen := length_windowRows (T := T) st.interfaces st.globalPid.toNat refs
    have hslice := windowSlice_rows args st.globalPid
      (windowRows T st.interfaces st.globalPid.toNat refs) (by omega) hstop
    rw [hlen] at hslice
    rw [hslice] at hrows
    rw [run, windowedRows, cut_append, hlen]
    dsimp only
    have htail := ih (processWindow T args st refs).1 (by rw [hinterfaces, hpid]; exact hrest)
    rw [hinterfaces, hpid] at htail
    split
    · -- the loop ends early: the rest lies past the end of the slice
      rename_i hbreak
      obtain ⟨htake, hge⟩ := hbreak
      have hpast : args.stop ≤ st.globalPid.toNat + (classify T st.interfaces refs).2.length := by
        have hle := UInt64.le_iff_toNat_le.mp hge
        rw [UInt64.toNat_add, Nat.mod_eq_of_lt (hstop.resolve_left htake), hpid] at hle
        unfold Args.stop
        rwa [if_neg htake]
      rw [cut_past hpast, List.append_nil]
      exact hrows
    · rw [← htail, ← hrows]

/-- When the end of the slice wraps, a run stores nothing. -/
theorem run_wrapped (st : Converter) (windows : List (List Block))
    (hfits : st.globalPid.toNat + (classify T st.interfaces windows.flatten).2.length < 2 ^ 64)
    (htake : args.take ≠ UINT64_MAX) (hwrap : 2 ^ 64 ≤ args.drop.toNat + args.take.toNat) :
    (run T args st windows).2 = [] := by
  induction windows generalizing st with
  | nil => rfl
  | cons refs rest ih =>
    obtain ⟨hinterfaces, hpid, hrest⟩ := processWindow_step args st refs rest hfits
    obtain ⟨_, _, hrows⟩ := processWindow_eq T args st refs
    have hlen := length_windowRows (T := T) st.interfaces st.globalPid.toNat refs
    have hslice := windowSlice_wrapped args st.globalPid
      (windowRows T st.interfaces st.globalPid.toNat refs) (by omega) htake hwrap
    rw [hlen] at hslice
    rw [hslice] at hrows
    have htail := ih (processWindow T args st refs).1 (by rw [hinterfaces, hpid]; exact hrest)
    rw [run]
    dsimp only
    split
    · exact hrows
    · rw [hrows, htail]
      rfl

end Runs

end N2P.Capture
