import MiniC.Text.Utf8

namespace MiniC.Text

/-- From the first character on: how many are not printable, and then how many are. -/
def printableRuns : List (Nat × Nat) := [
  (32, 95), (34, 12), (1, 714), (2, 6), (4, 7), (1, 1), (1, 20), (1, 397), (1, 38), (2, 50), (2, 3), (1, 55),
  (8, 27), (4, 6), (17, 22), (1, 192), (1, 48), (2, 59), (2, 101), (14, 59), (2, 49), (2, 15), (1, 28), (2, 1),
  (1, 11), (5, 32), (7, 75), (1, 161), (1, 8), (2, 2), (2, 22), (1, 7), (1, 1), (3, 4), (2, 9), (2, 2), (2, 4),
  (8, 1), (4, 2), (1, 5), (2, 25), (2, 3), (1, 6), (4, 2), (2, 22), (1, 7), (1, 2), (1, 2), (1, 2), (2, 1), (1, 5),
  (4, 2), (2, 3), (3, 1), (7, 4), (1, 1), (7, 17), (10, 3), (1, 9), (1, 3), (1, 22), (1, 7), (1, 2), (1, 5), (2, 10),
  (1, 3), (1, 3), (2, 1), (15, 4), (2, 12), (7, 7), (1, 3), (1, 8), (2, 2), (2, 22), (1, 7), (1, 2), (1, 5), (2, 9),
  (2, 2), (2, 3), (7, 3), (4, 2), (1, 5), (2, 18), (10, 2), (1, 6), (3, 3), (1, 4), (3, 2), (1, 1), (1, 2), (3, 2),
  (3, 3), (3, 12), (4, 5), (3, 3), (1, 4), (2, 1), (6, 1), (14, 21), (5, 13), (1, 3), (1, 23), (1, 16), (2, 9),
  (1, 3), (1, 4), (7, 2), (1, 3), (1, 2), (2, 4), (2, 10), (7, 22), (1, 3), (1, 23), (1, 10), (1, 5), (2, 9), (1, 3),
  (1, 4), (7, 2), (5, 3), (1, 4), (2, 10), (1, 3), (12, 13), (1, 3), (1, 51), (1, 3), (1, 6), (4, 16), (2, 26),
  (1, 3), (1, 18), (3, 24), (1, 9), (1, 1), (2, 7), (3, 1), (4, 6), (1, 1), (1, 8), (6, 10), (2, 3), (12, 58),
  (4, 29), (37, 2), (1, 1), (1, 5), (1, 24), (1, 1), (1, 23), (2, 5), (1, 1), (1, 7), (1, 10), (2, 4), (32, 72),
  (1, 36), (4, 39), (1, 36), (1, 15), (1, 13), (37, 198), (1, 1), (5, 1), (2, 377), (1, 4), (2, 7), (1, 1), (1, 4),
  (2, 41), (1, 4), (2, 33), (1, 4), (2, 7), (1, 1), (1, 4), (2, 15), (1, 57), (1, 4), (2, 67), (2, 32), (3, 26),
  (6, 86), (2, 6), (2, 640), (1, 28), (3, 89), (7, 22), (9, 24), (9, 20), (12, 13), (1, 3), (1, 2), (12, 94),
  (2, 10), (6, 10), (6, 14), (1, 11), (6, 89), (7, 43), (5, 70), (10, 31), (1, 12), (4, 12), (4, 1), (3, 42), (2, 5),
  (11, 44), (4, 26), (6, 11), (3, 62), (2, 65), (1, 29), (2, 11), (6, 10), (6, 14), (2, 46), (2, 12), (20, 77),
  (1, 166), (8, 60), (3, 15), (3, 62), (5, 43), (2, 11), (8, 43), (5, 534), (2, 6), (2, 38), (2, 6), (2, 8), (1, 1),
  (1, 1), (1, 1), (1, 31), (2, 53), (1, 15), (1, 14), (2, 6), (1, 19), (2, 3), (1, 9), (17, 24), (8, 47), (17, 2),
  (2, 27), (1, 13), (3, 34), (14, 33), (15, 140), (4, 666), (22, 11), (21, 1812), (2, 382), (5, 45), (1, 1), (5, 1),
  (2, 56), (7, 2), (14, 24), (9, 7), (1, 7), (1, 7), (1, 7), (1, 7), (1, 7), (1, 7), (1, 7), (1, 126), (34, 26),
  (1, 89), (12, 214), (26, 16), (1, 63), (1, 86), (2, 103), (5, 43), (1, 94), (1, 86), (9, 48), (1, 29293), (3, 55),
  (9, 348), (20, 184), (8, 221), (20, 60), (3, 10), (6, 56), (8, 70), (8, 12), (6, 116), (11, 30), (3, 78), (1, 11),
  (4, 33), (1, 55), (9, 14), (2, 10), (2, 103), (24, 28), (10, 6), (2, 6), (2, 6), (9, 7), (1, 7), (1, 60), (4, 126),
  (2, 10), (6, 11172), (12, 23), (4, 49), (8452, 366), (2, 106), (38, 7), (12, 5), (5, 26), (1, 5), (1, 1), (1, 2),
  (1, 2), (1, 650), (32, 42), (6, 51), (1, 19), (1, 4), (4, 5), (1, 135), (4, 190), (3, 6), (2, 6), (2, 6), (2, 3),
  (3, 7), (1, 7), (13, 2), (2, 12), (1, 26), (1, 19), (1, 2), (1, 15), (2, 14), (34, 123), (5, 3), (4, 45), (3, 88),
  (1, 13), (3, 1), (47, 46), (130, 29), (3, 49), (15, 28), (4, 36), (9, 30), (5, 43), (5, 30), (1, 37), (4, 14),
  (42, 158), (2, 10), (6, 36), (4, 36), (4, 40), (8, 52), (11, 12), (1, 15), (1, 7), (1, 2), (1, 11), (1, 15),
  (1, 7), (1, 2), (3, 52), (12, 311), (9, 22), (10, 8), (24, 6), (1, 42), (1, 9), (69, 6), (2, 1), (1, 44), (1, 2),
  (3, 1), (2, 23), (1, 72), (8, 9), (48, 19), (1, 2), (5, 33), (3, 27), (5, 27), (38, 56), (4, 20), (2, 50), (1, 2),
  (5, 8), (1, 3), (1, 29), (2, 3), (4, 10), (7, 9), (7, 64), (32, 39), (4, 12), (9, 54), (3, 29), (2, 27), (5, 26),
  (7, 4), (12, 7), (80, 73), (55, 51), (13, 51), (7, 46), (8, 10), (6, 38), (3, 29), (8, 2), (208, 31), (1, 42),
  (1, 3), (2, 2), (16, 6), (8, 9), (33, 46), (8, 42), (22, 26), (38, 28), (20, 23), (9, 78), (4, 36), (9, 62),
  (1, 5), (13, 25), (7, 10), (6, 53), (1, 18), (8, 39), (9, 96), (1, 20), (11, 18), (1, 47), (62, 7), (1, 1), (1, 4),
  (1, 15), (1, 11), (6, 59), (5, 10), (6, 4), (1, 8), (2, 2), (2, 22), (1, 7), (1, 2), (1, 5), (1, 10), (2, 2),
  (2, 3), (2, 1), (6, 1), (5, 7), (2, 7), (3, 5), (11, 10), (1, 1), (2, 1), (1, 38), (1, 10), (1, 1), (2, 1), (1, 4),
  (1, 10), (1, 2), (8, 2), (29, 92), (1, 5), (30, 72), (8, 10), (166, 54), (2, 38), (34, 69), (11, 10), (6, 13),
  (19, 58), (6, 10), (6, 20), (28, 27), (2, 15), (4, 23), (185, 60), (100, 83), (12, 8), (2, 1), (2, 8), (1, 2),
  (1, 30), (1, 2), (2, 12), (9, 10), (70, 8), (2, 46), (2, 11), (27, 72), (8, 83), (13, 73), (7, 10), (86, 8),
  (88, 34), (14, 10), (6, 9), (1, 45), (1, 14), (10, 29), (3, 32), (2, 22), (1, 14), (73, 7), (1, 2), (1, 44),
  (3, 1), (1, 2), (1, 9), (8, 10), (6, 6), (1, 2), (1, 37), (1, 2), (1, 6), (7, 10), (6, 44), (4, 10), (246, 25),
  (7, 17), (1, 41), (3, 29), (85, 1), (15, 50), (13, 923), (102, 111), (1, 5), (11, 196), (2636, 99), (13, 1072),
  (16, 22), (10, 3995), (5, 583), (6841, 58), (1734, 569), (7, 31), (1, 10), (4, 81), (1, 10), (6, 30), (2, 6),
  (10, 70), (10, 10), (1, 7), (1, 21), (5, 19), (432, 58), (198, 91), (5, 25), (2, 25), (44, 75), (4, 57), (7, 17),
  (64, 5), (11, 7), (9, 7382), (41, 32), (97, 115), (8701, 4), (1, 7), (1, 2), (1, 291), (15, 1), (29, 3), (2, 1),
  (14, 4), (8, 396), (2308, 107), (5, 13), (3, 9), (7, 10), (2, 4), (3936, 253), (3, 436), (6, 23), (15, 17),
  (15, 46), (2, 23), (9, 116), (60, 246), (10, 39), (2, 74), (8, 112), (21, 70), (122, 20), (12, 20), (12, 87),
  (9, 25), (135, 85), (1, 71), (1, 2), (2, 1), (2, 2), (2, 4), (1, 12), (1, 1), (1, 7), (1, 65), (1, 4), (2, 8),
  (1, 7), (1, 28), (1, 4), (1, 5), (1, 1), (3, 7), (1, 340), (2, 292), (2, 702), (15, 5), (1, 15), (1104, 31),
  (6, 6), (213, 7), (1, 17), (2, 7), (1, 2), (1, 5), (5, 62), (33, 1), (112, 45), (3, 14), (2, 10), (4, 2),
  (320, 31), (17, 58), (5, 1), (464, 42), (214, 43), (4, 1), (192, 31), (1, 22), (8, 2), (224, 7), (1, 4), (1, 2),
  (1, 15), (1, 197), (2, 16), (41, 76), (4, 10), (4, 2), (785, 68), (76, 61), (194, 4), (1, 27), (1, 2), (1, 1),
  (2, 1), (1, 10), (1, 4), (1, 1), (1, 1), (6, 1), (4, 1), (1, 1), (1, 1), (1, 3), (1, 2), (1, 1), (2, 1), (1, 1),
  (1, 1), (1, 1), (1, 1), (1, 2), (1, 1), (2, 4), (1, 7), (1, 4), (1, 4), (1, 1), (1, 10), (1, 17), (5, 3), (1, 5),
  (1, 17), (52, 2), (270, 44), (4, 100), (12, 15), (2, 15), (1, 15), (1, 37), (10, 174), (56, 29), (13, 44), (4, 9),
  (7, 2), (14, 6), (154, 985), (3, 17), (3, 13), (3, 218), (6, 12), (4, 1), (15, 12), (4, 56), (8, 10), (6, 40),
  (8, 30), (2, 12), (4, 2), (14, 9), (39, 344), (8, 14), (2, 13), (3, 11), (3, 57), (1, 1), (4, 16), (2, 12),
  (4, 10), (7, 147), (1, 103), (1029, 42720), (32, 4382), (2, 5774), (2, 7473), (15, 622), (2466, 542), (1506, 4939),
  (5, 8490), (707718, 240)]

def isInRun : List (Nat × Nat) → Nat → Bool
  | [], _ => false
  | (others, printable) :: runs, n =>
    if n < others then false
    else if n < others + printable then true
    else isInRun runs (n - (others + printable))

def isPrintable (c : Char) : Bool :=
  isInRun printableRuns c.toNat

end MiniC.Text
