/-!
# Characters that print on their own

A character needs an escape when a reader would not see it as a character of its own: it is a
control or format character, a separator other than the plain space, unassigned or private; or it
extends the character before it; or displays ignore it by default. The halfwidth voiced and
semi-voiced sound marks take a cell of their own and do not count as extending. The data is that of
Unicode 17.
-/

set_option autoImplicit false

namespace SsaCompiler.Printable

/-- The code points that need an escape and have no neighbour that does. -/
def escapedPoints : List Nat := [
  173, 907, 909, 930, 1328, 1471, 1564, 1648, 1809, 2111, 2143, 2362, 2364, 2381, 2433, 2436, 2473, 2481, 2494, 2509,
  2526, 2564, 2601, 2609, 2612, 2615, 2653, 2677, 2692, 2702, 2706, 2729, 2737, 2740, 2762, 2820, 2857, 2865, 2868,
  2910, 2948, 2961, 2971, 2973, 3008, 3017, 3076, 3085, 3089, 3113, 3163, 3201, 3213, 3217, 3241, 3252, 3266, 3295,
  3312, 3341, 3345, 3390, 3401, 3405, 3415, 3460, 3506, 3516, 3633, 3715, 3717, 3723, 3748, 3750, 3761, 3781, 3893,
  3895, 3897, 3912, 4038, 4045, 4226, 4237, 4253, 4294, 4681, 4695, 4697, 4745, 4785, 4799, 4801, 4823, 4881, 5760,
  5997, 6086, 6313, 6450, 6742, 6754, 6989, 7142, 7149, 7405, 7412, 8024, 8026, 8028, 8030, 8117, 8133, 8156, 8181,
  8335, 11558, 11687, 11695, 11703, 11711, 11719, 11727, 11735, 11930, 12288, 12352, 12592, 12644, 12687, 12831, 43010,
  43014, 43019, 43263, 43443, 43456, 43470, 43493, 43519, 43587, 43596, 43644, 43696, 43713, 43815, 43823, 44005,
  44008, 64286, 64311, 64317, 64319, 64322, 64325, 65107, 65127, 65141, 65440, 65511, 65548, 65575, 65595, 65598,
  65935, 66462, 66939, 66955, 66963, 66966, 66978, 66994, 67002, 67462, 67505, 67593, 67638, 67670, 67827, 68116,
  68120, 69247, 69633, 69744, 69821, 70003, 70080, 70095, 70112, 70162, 70206, 70279, 70281, 70286, 70302, 70367,
  70404, 70441, 70449, 70452, 70462, 70464, 70538, 70543, 70582, 70584, 70603, 70610, 70614, 70726, 70748, 70750,
  70832, 70842, 70845, 71087, 71229, 71339, 71341, 71455, 71956, 71959, 71984, 71990, 72003, 72160, 72550, 72713,
  72767, 72967, 72970, 73062, 73065, 73109, 73111, 73489, 74863, 92767, 92863, 93018, 93026, 110580, 110588, 110591,
  119893, 119965, 119981, 119994, 119996, 120004, 120070, 120085, 120093, 120122, 120127, 120133, 120145, 121461,
  121476, 124639, 124643, 124646, 124903, 124908, 124911, 124927, 126468, 126496, 126499, 126504, 126515, 126520,
  126522, 126536, 126538, 126540, 126544, 126547, 126552, 126554, 126556, 126558, 126560, 126563, 126571, 126579,
  126584, 126589, 126591, 126602, 126628, 126634, 127168, 127184, 129735, 129939]

/-- The other code points that need an escape, as ascending ranges: the first one, and how many stand behind it. -/
def escapedRanges : List (Nat × Nat) := [
  (0, 31), (127, 33), (768, 111), (888, 1), (896, 3), (1155, 6), (1367, 1), (1419, 1), (1424, 45), (1473, 1),
  (1476, 1), (1479, 8), (1515, 3), (1525, 16), (1552, 10), (1611, 20), (1750, 7), (1759, 5), (1767, 1), (1770, 3),
  (1806, 1), (1840, 28), (1958, 10), (1970, 13), (2027, 8), (2043, 2), (2070, 3), (2075, 8), (2085, 2), (2089, 6),
  (2137, 4), (2155, 4), (2192, 15), (2250, 56), (2369, 7), (2385, 6), (2402, 1), (2445, 1), (2449, 1), (2483, 2),
  (2490, 2), (2497, 5), (2505, 1), (2511, 12), (2530, 3), (2558, 4), (2571, 3), (2577, 1), (2618, 3), (2625, 23),
  (2655, 6), (2672, 1), (2679, 11), (2746, 2), (2753, 7), (2765, 2), (2769, 14), (2786, 3), (2802, 6), (2810, 7),
  (2829, 1), (2833, 1), (2874, 2), (2878, 1), (2881, 5), (2889, 1), (2893, 14), (2914, 3), (2936, 10), (2955, 2),
  (2966, 2), (2976, 2), (2981, 2), (2987, 2), (3002, 4), (3011, 2), (3021, 2), (3025, 20), (3067, 5), (3130, 2),
  (3134, 2), (3141, 18), (3166, 1), (3170, 3), (3184, 6), (3258, 2), (3263, 1), (3269, 22), (3298, 3), (3316, 13),
  (3387, 1), (3393, 4), (3408, 3), (3426, 3), (3456, 1), (3479, 2), (3518, 1), (3527, 8), (3538, 5), (3551, 6),
  (3568, 1), (3573, 11), (3636, 10), (3655, 7), (3676, 36), (3764, 8), (3774, 1), (3783, 8), (3802, 1), (3808, 31),
  (3864, 1), (3949, 17), (3968, 4), (3974, 1), (3981, 48), (4059, 36), (4141, 3), (4146, 5), (4153, 1), (4157, 1),
  (4184, 1), (4190, 2), (4209, 3), (4229, 1), (4296, 4), (4302, 1), (4447, 1), (4686, 1), (4702, 1), (4750, 1),
  (4790, 1), (4806, 1), (4886, 1), (4955, 4), (4989, 2), (5018, 5), (5110, 1), (5118, 1), (5789, 2), (5881, 6),
  (5906, 12), (5938, 2), (5943, 8), (5970, 13), (6001, 14), (6068, 1), (6071, 6), (6089, 10), (6109, 2), (6122, 5),
  (6138, 5), (6155, 4), (6170, 5), (6265, 6), (6277, 1), (6315, 4), (6390, 9), (6431, 3), (6439, 1), (6444, 3),
  (6457, 6), (6465, 2), (6510, 1), (6517, 10), (6572, 3), (6602, 5), (6619, 2), (6679, 1), (6683, 2), (6744, 8),
  (6757, 7), (6771, 12), (6794, 5), (6810, 5), (6830, 85), (6964, 9), (6978, 2), (7019, 8), (7040, 1), (7074, 3),
  (7080, 5), (7144, 1), (7151, 12), (7212, 7), (7222, 4), (7242, 2), (7307, 4), (7355, 1), (7368, 10), (7380, 12),
  (7394, 6), (7416, 1), (7419, 4), (7616, 63), (7958, 1), (7966, 1), (8006, 1), (8014, 1), (8062, 1), (8148, 1),
  (8176, 1), (8191, 16), (8232, 7), (8287, 16), (8306, 1), (8349, 2), (8386, 61), (8588, 3), (9258, 21), (9291, 20),
  (11124, 1), (11503, 2), (11508, 4), (11560, 4), (11566, 1), (11624, 6), (11633, 14), (11671, 8), (11743, 32),
  (11870, 33), (12020, 11), (12246, 25), (12330, 5), (12439, 3), (12544, 4), (12774, 8), (42125, 2), (42183, 8),
  (42540, 19), (42607, 3), (42612, 9), (42654, 1), (42736, 1), (42744, 7), (42973, 19), (43045, 1), (43052, 3),
  (43066, 5), (43128, 7), (43204, 9), (43226, 23), (43302, 7), (43335, 10), (43347, 11), (43389, 5), (43446, 3),
  (43452, 1), (43482, 3), (43561, 5), (43569, 1), (43573, 10), (43598, 1), (43610, 1), (43698, 2), (43703, 1),
  (43710, 1), (43715, 23), (43756, 1), (43766, 10), (43783, 1), (43791, 1), (43799, 8), (43884, 3), (44013, 2),
  (44026, 5), (55204, 11), (55239, 3), (55292, 8451), (64110, 1), (64218, 37), (64263, 11), (64280, 4), (64976, 31),
  (65024, 15), (65050, 21), (65132, 3), (65277, 3), (65471, 2), (65480, 1), (65488, 1), (65496, 1), (65501, 2),
  (65519, 12), (65534, 1), (65614, 1), (65630, 33), (65787, 4), (65795, 3), (65844, 2), (65949, 2), (65953, 46),
  (66045, 130), (66205, 2), (66257, 15), (66300, 3), (66340, 8), (66379, 4), (66422, 9), (66500, 3), (66518, 41),
  (66718, 1), (66730, 5), (66772, 3), (66812, 3), (66856, 7), (66916, 10), (67005, 2), (67060, 11), (67383, 8),
  (67414, 9), (67432, 23), (67515, 68), (67590, 1), (67641, 2), (67645, 1), (67743, 7), (67760, 47), (67830, 4),
  (67868, 2), (67898, 4), (67930, 37), (68024, 3), (68048, 1), (68097, 14), (68150, 9), (68169, 6), (68185, 6),
  (68256, 31), (68325, 5), (68343, 8), (68406, 2), (68438, 1), (68467, 4), (68498, 6), (68509, 11), (68528, 79),
  (68681, 54), (68787, 12), (68851, 6), (68900, 11), (68922, 5), (68966, 7), (68998, 7), (69008, 207), (69290, 2),
  (69294, 1), (69298, 15), (69320, 7), (69337, 38), (69416, 7), (69446, 10), (69466, 21), (69506, 3), (69514, 37),
  (69580, 19), (69623, 8), (69688, 14), (69710, 3), (69747, 1), (69750, 11), (69811, 3), (69817, 1), (69826, 13),
  (69865, 6), (69882, 8), (69927, 4), (69933, 8), (69960, 7), (70007, 10), (70070, 8), (70089, 3), (70133, 10),
  (70191, 2), (70196, 3), (70209, 62), (70314, 5), (70371, 12), (70394, 7), (70413, 1), (70417, 1), (70458, 2),
  (70469, 1), (70473, 1), (70477, 2), (70481, 11), (70500, 27), (70540, 1), (70587, 14), (70606, 2), (70617, 38),
  (70712, 7), (70722, 2), (70754, 29), (70835, 5), (70847, 1), (70850, 1), (70856, 7), (70874, 165), (71090, 5),
  (71100, 1), (71103, 1), (71132, 35), (71219, 7), (71231, 1), (71237, 10), (71258, 5), (71277, 18), (71344, 7),
  (71354, 5), (71370, 5), (71396, 27), (71451, 2), (71458, 3), (71463, 8), (71495, 184), (71727, 8), (71737, 1),
  (71740, 99), (71923, 11), (71943, 1), (71946, 1), (71993, 5), (72007, 8), (72026, 69), (72104, 1), (72148, 7),
  (72165, 26), (72193, 9), (72243, 5), (72251, 3), (72263, 8), (72273, 5), (72281, 2), (72330, 12), (72344, 1),
  (72355, 12), (72441, 6), (72458, 86), (72546, 2), (72552, 87), (72674, 13), (72698, 5), (72752, 13), (72774, 9),
  (72813, 2), (72848, 24), (72874, 6), (72882, 1), (72885, 74), (73009, 20), (73031, 8), (73050, 5), (73103, 3),
  (73113, 6), (73130, 5), (73180, 3), (73194, 245), (73459, 1), (73465, 8), (73526, 7), (73536, 2), (73562, 85),
  (73649, 14), (73714, 12), (74650, 101), (74869, 10), (75076, 2635), (77811, 12), (78896, 16), (78919, 24),
  (82939, 4), (83527, 6840), (90398, 11), (90413, 2), (90426, 1733), (92729, 6), (92778, 3), (92874, 5), (92910, 6),
  (92918, 9), (92976, 6), (92998, 9), (93048, 4), (93072, 431), (93562, 197), (93851, 4), (93881, 1), (93908, 43),
  (94027, 4), (94088, 10), (94112, 63), (94180, 13), (94199, 8), (101590, 40), (101663, 96), (101875, 8700),
  (110883, 14), (110899, 28), (110931, 1), (110934, 13), (110952, 7), (111356, 2307), (113771, 4), (113789, 2),
  (113801, 6), (113818, 1), (113821, 1), (113824, 3935), (118013, 2), (118452, 5), (118481, 14), (118513, 94),
  (118724, 59), (119030, 9), (119079, 1), (119141, 4), (119149, 21), (119173, 6), (119210, 3), (119275, 20),
  (119362, 2), (119366, 121), (119508, 11), (119540, 11), (119639, 8), (119673, 134), (119968, 1), (119971, 1),
  (119975, 1), (120075, 1), (120135, 2), (120486, 1), (120780, 1), (121344, 54), (121403, 49), (121484, 1139),
  (122655, 5), (122667, 260), (122990, 145), (123181, 9), (123198, 1), (123210, 3), (123216, 319), (123566, 17),
  (123628, 3), (123642, 4), (123648, 463), (124140, 3), (124154, 213), (124398, 1), (124411, 3), (124416, 191),
  (124654, 1), (124661, 8), (124672, 223), (125125, 1), (125136, 47), (125252, 6), (125260, 3), (125274, 3),
  (125280, 784), (126133, 75), (126270, 193), (126501, 1), (126524, 5), (126531, 3), (126549, 1), (126565, 1),
  (126620, 4), (126652, 51), (126706, 269), (127020, 3), (127124, 11), (127151, 1), (127222, 9), (127406, 55),
  (127491, 12), (127548, 3), (127561, 6), (127570, 13), (127590, 153), (128729, 2), (128749, 2), (128765, 2),
  (128986, 5), (129004, 3), (129009, 14), (129036, 3), (129096, 7), (129114, 5), (129160, 7), (129198, 1), (129212, 3),
  (129218, 13), (129241, 38), (129624, 7), (129646, 1), (129661, 2), (129675, 2), (129737, 3), (129757, 1),
  (129771, 3), (129785, 6), (130043, 1028), (173792, 31), (178206, 1), (183982, 1), (191457, 14), (192094, 2465),
  (195102, 1505), (201547, 4), (210042, 904069)]

/-- Whether a character prints on its own. -/
def standsAlone (c : Char) : Bool :=
  if 32 ≤ c.toNat && c.toNat < 127 then true
  else !escapedPoints.contains c.toNat && !escapedRanges.any fun r => r.1 ≤ c.toNat && c.toNat ≤ r.1 + r.2

end SsaCompiler.Printable
