import OVMesh.Gps.GeographicPlot

/-!
# Geographic cells

`cell_for` of `report.cpp` over a field, with what it takes of the sphere as a parameter: the cells are
rows of latitude, each cut into a number of columns of its own.

* `latitudeStep`, `bands`, `columns`, `cellAt`: the rows, the columns and the rectangle of a cell.
* `cellFor`: the cell of a fix.
* `row_iff`, `column_iff`: the row and the column of a place are those whose bounds it meets.
* `cells_partition`: the rectangles partition the globe, and a fix is in the one of its cell.
-/

namespace OVMesh

namespace Report

variable {K : Type} [Field K] [LinearOrder K]

/-- `Cell`: the cell of a position, with its edges. -/
structure Cell (K : Type) where
  row : ℤ
  column : ℤ
  south : K
  north : K
  west : K
  east : K

/-- The key of a cell in the report. -/
def Cell.key (cell : Cell K) : ℤ × ℤ := (cell.row, cell.column)

/-- `std::clamp`: the nearest number between the bounds. -/
def clamp (x low high : ℤ) : ℤ := if x < low then low else if high < x then high else x

/-- `has_position`: there is a fix, and it is valid. -/
def hasPosition (position : Option (PositionFix K)) : Bool := position.any (·.valid)

section Cells

variable [FloorRing K] (sphere : Sphere K) (metres : K)

/-- `latitude_step`: the height of a cell in degrees. -/
def latitudeStep : K := metres / sphere.metresPerDegree

/-- The rows of cells between the poles. -/
def bands : ℤ := ⌈180 / latitudeStep sphere metres⌉

/-- The southern edge of a row. -/
def rowSouth (row : ℤ) : K := -90 + row * latitudeStep sphere metres

/-- The northern edge of a row, at most the pole. -/
def rowNorth (row : ℤ) : K := min 90 (rowSouth sphere metres row + latitudeStep sphere metres)

/-- The length of the parallel in the middle of a row. -/
def circumference (row : ℤ) : K :=
  360 * sphere.metresPerDegree *
    sphere.cosDegrees ((rowSouth sphere metres row + rowNorth sphere metres row) / 2)

/-- The cells of a row: each is at most as wide as asked, and there is at least one. -/
def columns (row : ℤ) : ℤ := max 1 ⌈circumference sphere metres row / metres⌉

/-- The cell of a row and a column. -/
def cellAt (row column : ℤ) : Cell K :=
  { row, column
    south := rowSouth sphere metres row
    north := rowNorth sphere metres row
    west := -180 + column * 360 / columns sphere metres row
    east := -180 + (column + 1) * 360 / columns sphere metres row }

/-- The meridian of 180 degrees is that of -180. -/
def westward (longitude : K) : K := if longitude = 180 then -180 else longitude

/-- The row of a latitude. -/
def rowOf (latitude : K) : ℤ :=
  clamp ⌊(latitude + 90) / latitudeStep sphere metres⌋ 0 (bands sphere metres - 1)

/-- The column of a longitude in a row. -/
def columnOf (row : ℤ) (longitude : K) : ℤ :=
  clamp ⌊(westward longitude + 180) / 360 * columns sphere metres row⌋ 0
    (columns sphere metres row - 1)

/-- `cell_for`: a fix that is not valid has no cell. -/
def cellFor (position : Option (PositionFix K)) : Cell K :=
  match position.filter (·.valid) with
  | none => ⟨-1, -1, 0, 0, 0, 0⟩
  | some fix =>
    let row := rowOf sphere metres fix.latitude
    cellAt sphere metres row (columnOf sphere metres row fix.longitude)

/-! ## Rectangles -/

/-- A latitude and a longitude of the globe. -/
structure OnGlobe (latitude longitude : K) : Prop where
  south : -90 ≤ latitude
  north : latitude ≤ 90
  west : -180 ≤ longitude
  east : longitude ≤ 180

/-- The rectangle of a cell has a place: it is open to the north and to the east, but for the pole. -/
structure Cell.Contains (cell : Cell K) (latitude longitude : K) : Prop where
  south : cell.south ≤ latitude
  north : latitude < cell.north ∨ latitude = 90 ∧ cell.north = 90
  west : cell.west ≤ westward longitude
  east : westward longitude < cell.east

/-- A row and a column of the grid. -/
structure IsKey (key : ℤ × ℤ) : Prop where
  row_nonneg : 0 ≤ key.1
  row_lt : key.1 < bands sphere metres
  column_nonneg : 0 ≤ key.2
  column_lt : key.2 < columns sphere metres key.1

end Cells

theorem clamp_of_mem {x low high : ℤ} (h₁ : low ≤ x) (h₂ : x ≤ high) : clamp x low high = x := by
  rw [clamp, if_neg (not_lt.mpr h₁), if_neg (not_lt.mpr h₂)]

theorem clamp_mem {x low high : ℤ} (h : low ≤ high) : low ≤ clamp x low high ∧ clamp x low high ≤ high := by
  rw [clamp]
  split_ifs <;> omega

variable [IsStrictOrderedRing K] [FloorRing K] {sphere : Sphere K} {metres : K}
  {latitude longitude : K} {row column : ℤ}

omit [FloorRing K] in
theorem westward_mem (hwest : -180 ≤ longitude) (heast : longitude ≤ 180) :
    -180 ≤ westward longitude ∧ westward longitude < 180 := by
  rw [westward]
  split_ifs with h
  · norm_num
  · exact ⟨hwest, lt_of_le_of_ne heast h⟩

/-- The multiples of a width that a number lies between. -/
theorem floor_div_iff {x width : K} (hwidth : 0 < width) (n : ℤ) :
    ⌊x / width⌋ = n ↔ n * width ≤ x ∧ x < (n + 1) * width := by
  rw [Int.floor_eq_iff, le_div_iff₀ hwidth, div_lt_iff₀ hwidth]

/-! ## Rows -/

omit [FloorRing K] in
theorem rowNorth_lt_iff : latitude < rowNorth sphere metres row ↔
    latitude < 90 ∧ latitude + 90 < (row + 1) * latitudeStep sphere metres := by
  rw [rowNorth, lt_min_iff, rowSouth]
  apply and_congr_right'
  constructor <;> intro h <;> linarith

omit [FloorRing K] in
theorem rowSouth_le_iff : rowSouth sphere metres row ≤ latitude ↔
    row * latitudeStep sphere metres ≤ latitude + 90 := by
  rw [rowSouth]
  constructor <;> intro h <;> linarith

/-- The last rows are those that reach the pole. -/
theorem rowNorth_eq_iff (hstep : 0 < latitudeStep sphere metres) :
    rowNorth sphere metres row = 90 ↔ bands sphere metres ≤ row + 1 := by
  have hceil : bands sphere metres ≤ row + 1 ↔ 180 ≤ (row + 1) * latitudeStep sphere metres := by
    rw [bands, Int.ceil_le, div_le_iff₀ hstep]
    push_cast
    rfl
  rw [hceil, rowNorth, min_eq_left_iff, rowSouth]
  constructor <;> intro h <;> linarith

/-- **Rows.** A latitude meets the bounds of its row, and of no other. -/
theorem row_iff (hstep : 0 < latitudeStep sphere metres) (hsouth : -90 ≤ latitude)
    (hnorth : latitude ≤ 90) (hrow : row < bands sphere metres) :
    (rowSouth sphere metres row ≤ latitude ∧
      (latitude < rowNorth sphere metres row ∨ latitude = 90 ∧ rowNorth sphere metres row = 90)) ↔
    row = rowOf sphere metres latitude := by
  have hceil : 180 / latitudeStep sphere metres ≤ bands sphere metres := Int.le_ceil _
  have hfloor : 0 ≤ ⌊(latitude + 90) / latitudeStep sphere metres⌋ :=
    Int.floor_nonneg.mpr (div_nonneg (by linarith) hstep.le)
  rw [rowSouth_le_iff, rowNorth_lt_iff, rowNorth_eq_iff hstep, rowOf]
  by_cases hpole : latitude = 90
  · -- at the pole the floor is the number of rows where the step divides 180 degrees
    subst hpole
    have hlast : bands sphere metres - 1 ≤ ⌊(90 + 90) / latitudeStep sphere metres⌋ := by
      have h := Int.ceil_lt_add_one (180 / latitudeStep sphere metres)
      have hle : (bands sphere metres - 1 : ℤ) ≤ (90 + 90) / latitudeStep sphere metres := by
        norm_num [bands]
        linarith
      exact Int.le_floor.mpr hle
    have hclamp : clamp ⌊(90 + 90) / latitudeStep sphere metres⌋ 0 (bands sphere metres - 1) =
        bands sphere metres - 1 := by
      rw [clamp]
      split_ifs <;> omega
    rw [hclamp]
    constructor
    · rintro ⟨-, ⟨hlt, -⟩ | ⟨-, hle⟩⟩
      · exact absurd hlt (lt_irrefl _)
      · omega
    · rintro rfl
      refine ⟨?_, .inr ⟨rfl, by omega⟩⟩
      exact (le_div_iff₀ hstep).mp (Int.le_floor.mp hlast)
  · have hlt := lt_of_le_of_ne hnorth hpole
    have hbelow : ⌊(latitude + 90) / latitudeStep sphere metres⌋ ≤ bands sphere metres - 1 := by
      have h : (latitude + 90) / latitudeStep sphere metres < bands sphere metres :=
        (div_lt_div_of_pos_right (by linarith) hstep).trans_le hceil
      have := Int.floor_lt.mpr h
      omega
    rw [clamp_of_mem hfloor hbelow, @eq_comm _ row, floor_div_iff hstep]
    constructor
    · rintro ⟨hle, ⟨-, h⟩ | ⟨h, -⟩⟩
      · exact ⟨hle, h⟩
      · exact absurd h hpole
    · rintro ⟨hle, h⟩
      exact ⟨hle, .inl ⟨hlt, h⟩⟩

theorem bands_pos (hstep : 0 < latitudeStep sphere metres) : 0 < bands sphere metres :=
  Int.ceil_pos.mpr (div_pos (by norm_num) hstep)

theorem rowOf_mem (hstep : 0 < latitudeStep sphere metres) :
    0 ≤ rowOf sphere metres latitude ∧ rowOf sphere metres latitude < bands sphere metres := by
  have hbands := bands_pos hstep
  have h := @clamp_mem ⌊(latitude + 90) / latitudeStep sphere metres⌋ 0 (bands sphere metres - 1) (by omega)
  rw [rowOf]
  omega

/-! ## Columns -/

omit [IsStrictOrderedRing K] in
theorem columns_pos : 0 < columns sphere metres row := lt_max_of_lt_left one_pos

/-- **Columns.** A longitude meets the bounds of its column, and of no other. -/
theorem column_iff (hwest : -180 ≤ longitude) (heast : longitude ≤ 180) :
    ((cellAt sphere metres row column).west ≤ westward longitude ∧
      westward longitude < (cellAt sphere metres row column).east) ↔
    column = columnOf sphere metres row longitude := by
  obtain ⟨hlow, hhigh⟩ := westward_mem hwest heast
  have hcolumns : (0 : K) < columns sphere metres row := Int.cast_pos.mpr columns_pos
  have hscale : (westward longitude + 180) / 360 * columns sphere metres row =
      (westward longitude + 180) / (360 / columns sphere metres row) := by
    field_simp
  have hwidth : (0 : K) < 360 / columns sphere metres row := div_pos (by norm_num) hcolumns
  have hfloor : 0 ≤ ⌊(westward longitude + 180) / 360 * columns sphere metres row⌋ :=
    Int.floor_nonneg.mpr (mul_nonneg (div_nonneg (by linarith) (by norm_num)) hcolumns.le)
  have hbelow : ⌊(westward longitude + 180) / 360 * columns sphere metres row⌋ ≤
      columns sphere metres row - 1 := by
    have h : (westward longitude + 180) / 360 * columns sphere metres row <
        columns sphere metres row := by
      have hone : (westward longitude + 180) / 360 < 1 := by
        rw [div_lt_one (by norm_num)]
        linarith
      simpa using mul_lt_mul_of_pos_right hone hcolumns
    have := Int.floor_lt.mpr h
    omega
  rw [columnOf, clamp_of_mem hfloor hbelow, @eq_comm _ column, hscale, floor_div_iff hwidth, cellAt]
  simp only [mul_div_assoc]
  constructor <;> rintro ⟨h₁, h₂⟩ <;> constructor <;> linarith

omit [IsStrictOrderedRing K] in
theorem columnOf_mem : 0 ≤ columnOf sphere metres row longitude ∧
    columnOf sphere metres row longitude < columns sphere metres row := by
  have hcolumns := @columns_pos K _ _ _ sphere metres row
  have h := @clamp_mem ⌊(westward longitude + 180) / 360 * columns sphere metres row⌋ 0
    (columns sphere metres row - 1) (by omega)
  rw [columnOf]
  omega

/-! ## Cells -/

/-- A place is in the rectangle of its row and its column, and in no other. -/
theorem contains_iff (hstep : 0 < latitudeStep sphere metres) (hplace : OnGlobe latitude longitude)
    {key : ℤ × ℤ} (hkey : IsKey sphere metres key) :
    (cellAt sphere metres key.1 key.2).Contains latitude longitude ↔
      key = (rowOf sphere metres latitude,
        columnOf sphere metres (rowOf sphere metres latitude) longitude) := by
  have hrows := row_iff hstep hplace.south hplace.north hkey.row_lt
  have hcolumns := @column_iff K _ _ _ _ sphere metres _ key.1 key.2 hplace.west hplace.east
  constructor
  · intro h
    have hrow := hrows.mp ⟨h.south, h.north⟩
    have hcolumn := hcolumns.mp ⟨h.west, h.east⟩
    rw [hrow] at hcolumn
    exact Prod.ext hrow hcolumn
  · intro h
    have hrow := hrows.mpr (congrArg Prod.fst h)
    have hcolumn := hcolumns.mpr (by rw [h])
    exact ⟨hrow.1, hrow.2, hcolumn.1, hcolumn.2⟩

/-- The row and the column of a place are in the grid. -/
theorem isKey_of (hstep : 0 < latitudeStep sphere metres) : IsKey sphere metres
    (rowOf sphere metres latitude, columnOf sphere metres (rowOf sphere metres latitude) longitude) :=
  ⟨(rowOf_mem hstep).1, (rowOf_mem hstep).2, columnOf_mem.1, columnOf_mem.2⟩

omit [IsStrictOrderedRing K] in
theorem cellFor_some {fix : PositionFix K} (hvalid : fix.valid = true) :
    cellFor sphere metres (some fix) = cellAt sphere metres (rowOf sphere metres fix.latitude)
      (columnOf sphere metres (rowOf sphere metres fix.latitude) fix.longitude) := by
  simp [cellFor, Option.filter, hvalid]

/-- A rectangle lies on the globe. -/
theorem onGlobe_of_contains (hstep : 0 < latitudeStep sphere metres) {key : ℤ × ℤ}
    (hkey : IsKey sphere metres key)
    (h : (cellAt sphere metres key.1 key.2).Contains latitude longitude) :
    OnGlobe latitude (westward longitude) := by
  have hrow : (0 : K) ≤ key.1 := Int.cast_nonneg hkey.row_nonneg
  have hcolumn : (0 : K) ≤ key.2 := Int.cast_nonneg hkey.column_nonneg
  have hlast : ((key.2 : K) + 1) ≤ columns sphere metres key.1 := by
    exact_mod_cast Int.add_one_le_iff.mpr hkey.column_lt
  have hcolumns : (0 : K) < columns sphere metres key.1 := Int.cast_pos.mpr columns_pos
  refine ⟨?_, ?_, ?_, ?_⟩
  · have hsouth := rowSouth_le_iff.mp h.south
    have := mul_nonneg hrow hstep.le
    linarith
  · rcases h.north with hlt | ⟨heq, -⟩
    · exact (rowNorth_lt_iff.mp hlt).1.le
    · exact heq.le
  · have hwest := h.west
    have : 0 ≤ (key.2 : K) * 360 / columns sphere metres key.1 :=
      div_nonneg (mul_nonneg hcolumn (by norm_num)) hcolumns.le
    simp only [cellAt] at hwest
    linarith
  · have heast := h.east
    have : ((key.2 : K) + 1) * 360 / columns sphere metres key.1 ≤ 360 := by
      rw [div_le_iff₀ hcolumns]
      linarith
    simp only [cellAt] at heast
    linarith

/-- **The cells of a report.** For every cell size and every sphere, a fix is in the rectangle of its
cell, the rectangles of the grid partition the globe, and two fixes have the same key if and only if
they are in one rectangle. -/
theorem cells_partition (sphere : Sphere K) (hsphere : 0 < sphere.metresPerDegree) (metres : K)
    (hmetres : 10 ≤ metres ∧ metres ≤ 10000) :
    (∀ fix : PositionFix K, fix.valid = true → OnGlobe fix.latitude fix.longitude →
      let cell := cellFor sphere metres (some fix)
      IsKey sphere metres cell.key ∧ cell = cellAt sphere metres cell.row cell.column ∧
        cell.Contains fix.latitude fix.longitude) ∧
    (∀ latitude longitude : K, OnGlobe latitude longitude → ∃! key, IsKey sphere metres key ∧
      (cellAt sphere metres key.1 key.2).Contains latitude longitude) ∧
    (∀ key, IsKey sphere metres key → ∀ latitude longitude : K,
      (cellAt sphere metres key.1 key.2).Contains latitude longitude →
        OnGlobe latitude (westward longitude)) ∧
    (∀ fix other : PositionFix K, fix.valid = true → OnGlobe fix.latitude fix.longitude →
      other.valid = true → OnGlobe other.latitude other.longitude →
      ((cellFor sphere metres (some fix)).key = (cellFor sphere metres (some other)).key ↔
        ∃ key, IsKey sphere metres key ∧
          (cellAt sphere metres key.1 key.2).Contains fix.latitude fix.longitude ∧
          (cellAt sphere metres key.1 key.2).Contains other.latitude other.longitude)) := by
  have hstep : 0 < latitudeStep sphere metres := div_pos (by linarith [hmetres.1]) hsphere
  refine ⟨fun fix hvalid hplace => ?_, fun latitude longitude hplace => ?_,
    fun key hkey latitude longitude h => onGlobe_of_contains hstep hkey h,
    fun fix other hvalid hplace hvalid' hplace' => ?_⟩
  · rw [cellFor_some hvalid]
    exact ⟨isKey_of hstep, rfl, (contains_iff hstep hplace (isKey_of hstep)).mpr rfl⟩
  · refine ⟨_, ⟨isKey_of hstep, (contains_iff hstep hplace (isKey_of hstep)).mpr rfl⟩, ?_⟩
    rintro key ⟨hkey, h⟩
    exact (contains_iff hstep hplace hkey).mp h
  · rw [cellFor_some hvalid, cellFor_some hvalid']
    constructor
    · intro heq
      refine ⟨_, isKey_of hstep, (contains_iff hstep hplace (isKey_of hstep)).mpr rfl, ?_⟩
      exact (contains_iff hstep hplace' (isKey_of hstep)).mpr heq
    · rintro ⟨key, hkey, h, h'⟩
      exact ((contains_iff hstep hplace hkey).mp h).symm.trans ((contains_iff hstep hplace' hkey).mp h')

/-- The pole on the meridian of 180 degrees, with rows of 0.07 degrees. -/
theorem cells_partition_pole :
    let sphere : Sphere ℚ := ⟨100000, fun degrees => 1 - degrees ^ 2 / 8100⟩
    ∃! key, IsKey sphere 7000 key ∧ (cellAt sphere 7000 key.1 key.2).Contains 90 180 := by
  intro sphere
  exact (cells_partition sphere (by norm_num [sphere]) 7000 (by norm_num)).2.1 90 180
    ⟨by norm_num, le_rfl, by norm_num, le_rfl⟩

end Report

end OVMesh
